import Mathlib.Algebra.Order.Field.Power
import Mathlib.Algebra.Order.Field.Rat
import Mathlib.Tactic.FieldSimp
import Mathlib.Tactic.Positivity
import Marginalia.Config
import Marginalia.Proofs.Members

/-!
# Valid configurations

What a configuration has to be is said of its value alone: its members are objects, texts with
something in them, whole numbers and associativities. Each requirement has a fault that breaks it,
and faults come in the order in which the places that they are in are checked. Main statement: a
file with a value is loaded exactly if the value is valid, with what the value says; and otherwise
the first fault of the value is reported.
-/

namespace Marginalia

namespace Binary64

/-! ## Whole numbers -/

/-- What a finite number is equal to. -/
def rational (x : Binary64) : ℚ := (if x.isNegative then -1 else 1) * (x.significand * 2 ^ x.power)

/-- A whole number over a power of two is whole exactly if it is divisible. -/
theorem scaled_eq_iff {significand shift n : Nat} :
    (significand * 2 ^ (-(shift : Int)) : ℚ) = n ↔ significand % 2 ^ shift = 0 ∧
    significand / 2 ^ shift = n := by
  have nonzero : (2 ^ shift : ℚ) ≠ 0 := by positivity
  rw [zpow_neg, zpow_natCast, ← div_eq_mul_inv, div_eq_iff nonzero]
  constructor
  · intro same
    have same : significand = n * 2 ^ shift := by exact_mod_cast same
    rw [same]
    exact ⟨Nat.mul_mod_left _ _, Nat.mul_div_cancel _ (by positivity)⟩
  · rintro ⟨divisible, rfl⟩
    exact_mod_cast (Nat.div_mul_cancel (Nat.dvd_of_mod_eq_zero divisible)).symm

/-- The whole number is found that a finite number is equal to. -/
theorem toNat?_eq_some_iff {x : Binary64} {n : Nat} :
    x.toNat? = some n ↔ x.isFinite ∧ x.rational = n := by
  rw [toNat?, rational]
  by_cases finite : x.isFinite = true
  case neg => simp [finite]
  by_cases zero : x.significand = 0
  · simp only [finite, zero, Bool.not_true, Bool.false_eq_true, ↓reduceIte, Nat.cast_zero, zero_mul,
      mul_zero, true_and, Option.some.injEq]
    exact_mod_cast Iff.rfl
  by_cases negative : x.isNegative = true
  · have positive : (0 : ℚ) < x.significand * 2 ^ x.power := by
      have significand : (0 : ℚ) < x.significand := by exact_mod_cast Nat.pos_of_ne_zero zero
      positivity
    have below : (-1 * (x.significand * 2 ^ x.power) : ℚ) < n := by
      rw [neg_one_mul]
      exact (neg_lt_zero.mpr positive).trans_le n.cast_nonneg
    simp only [finite, zero, negative, Bool.not_true, Bool.false_eq_true, ↓reduceIte, true_and,
      reduceCtorEq, below.ne]
  simp only [finite, zero, negative, Bool.not_true, Bool.false_eq_true, ↓reduceIte,
    one_mul, true_and]
  by_cases whole : 0 ≤ x.power
  · obtain ⟨shift, isShift⟩ := Int.eq_ofNat_of_zero_le whole
    rw [if_pos whole, isShift, zpow_natCast, Option.some.injEq]
    exact_mod_cast Iff.rfl
  · obtain ⟨shift, isShift⟩ := Int.eq_ofNat_of_zero_le (by omega : 0 ≤ -x.power)
    have power : x.power = -(shift : Int) := by omega
    rw [if_neg whole, isShift, power, scaled_eq_iff]
    by_cases divisible : x.significand % 2 ^ shift = 0 <;> simp [divisible]

end Binary64

/-- The value is a whole number: a natural one, or one whose nearest number of 64 bits is equal to
it. -/
inductive Json.IsWhole : Json → Nat → Prop
  | natural (n : Nat) : IsWhole (.natural n) n
  | real {d : Decimal} {n : Nat} (finite : (Binary64.ofDecimal d).isFinite)
      (whole : (Binary64.ofDecimal d).rational = n) : IsWhole (.real d) n

/-- A natural number is the only one that it is. -/
theorem Json.isWhole_natural_iff {value n : Nat} : (natural value).IsWhole n ↔ value = n := by
  constructor
  · rintro ⟨⟩
    rfl
  · rintro rfl
    exact .natural value

/-- Another number is the whole number that is found to be equal to its nearest one. -/
theorem Json.isWhole_real_iff {d : Decimal} {n : Nat} :
    (real d).IsWhole n ↔ (Binary64.ofDecimal d).toNat? = some n := by
  rw [Binary64.toNat?_eq_some_iff]
  constructor
  · rintro ⟨⟩
    exact ⟨‹_›, ‹_›⟩
  · rintro ⟨finite, whole⟩
    exact .real finite whole

namespace Config

/-! ## What a configuration says -/

/-- The value gives a directory of sources: a text in which there is something else than white
space. -/
def GivesSource (value : Json) (src : Text) : Prop :=
  value.member? "src" = some (.string src) ∧ ∃ unit ∈ src, unit.isWhiteSpace = false

/-- What the value gives for operators: no members where there is nothing. -/
def givenOperators (value : Json) : Json := (value.member? "operators").getD (.object [])

/-- The entry gives a precedence, a whole number from zero to nine. -/
def GivesPrecedence (entry : Json) (precedence : Nat) : Prop :=
  ∃ number, entry.member? "precedence" = some number ∧ number.IsWhole precedence ∧ precedence ≤ 9

/-- The entry gives an associativity by its name. -/
def GivesAssociativity (entry : Json) (associativity : Associativity) : Prop :=
  entry.member? "associativity" = some (.string associativity.name)

/-- The entry gives a fixity. -/
structure GivesFixity (entry : Json) (fixity : Fixity) : Prop where
  /-- Its precedence. -/
  precedence : ∃ precedence : Nat, fixity.precedence = precedence ∧ GivesPrecedence entry precedence
  /-- Its associativity. -/
  associativity : GivesAssociativity entry fixity.associativity

/-- The value is a configuration. -/
structure Valid (value : Json) : Prop where
  /-- It is an object. -/
  object : value.IsObject
  /-- There is a directory of sources. -/
  source : ∃ src, GivesSource value src
  /-- There is nothing for operators, or an object. -/
  operators : ∀ given, value.member? "operators" = some given → given.IsObject
  /-- For each operator there is an object with its fixity. -/
  fixities : ∀ given symbol entry, value.member? "operators" = some given →
      given.member? symbol = some entry → entry.IsObject ∧ ∃ fixity, GivesFixity entry fixity

/-- The operators have the fixities that they are given, in member order, except for the one under
the inert key. -/
structure Registers (given : Json) (operators : Registry) : Prop where
  /-- The keys are the given ones. -/
  keys : ∀ symbol, symbol ∈ operators.keys ↔ symbol ≠ Text.ofString inertKey ∧
      symbol ∈ given.writtenKeys
  /-- They come in member order, each of them once. -/
  ordered : operators.keys.Pairwise (Keyed.KeyBefore given.writtenKeys)
  /-- Each has the fixity that is given for it. -/
  fixities : ∀ symbol fixity, operators.get? symbol = some fixity →
    ∃ entry, given.member? symbol = some entry ∧ GivesFixity entry fixity

namespace Fault

/-! ## Faults in order -/

/-- The operator whose entry has the fault. -/
def symbol? : Fault → Option Text
  | notObject | source | operators => none
  | fixity symbol | precedence symbol | associativity symbol => some symbol

/-- There are three faults in the entry for an operator. -/
theorem of_symbol? {fault : Fault} {symbol : Text} (isSymbol : fault.symbol? = some symbol) :
    fault = fixity symbol ∨ fault = precedence symbol ∨ fault = associativity symbol := by
  cases fault <;> cases isSymbol <;> simp

/-- The entry that is given for an operator has the fault. -/
def OfEntry (entry : Json) : Fault → Prop
  | notObject | source | operators => False
  | fixity _ => ¬entry.IsObject
  | precedence _ => ¬∃ precedence, GivesPrecedence entry precedence
  | associativity _ => ¬∃ associativity, GivesAssociativity entry associativity

/-- The value has the fault. -/
def Of (value : Json) (fault : Fault) : Prop :=
  match fault with
  | notObject => ¬value.IsObject
  | source => ¬∃ src, GivesSource value src
  | operators => ¬(givenOperators value).IsObject
  | fixity symbol | precedence symbol | associativity symbol =>
    ∃ entry, (givenOperators value).member? symbol = some entry ∧ fault.OfEntry entry

/-- A fault in an entry is one of the value that the entry belongs to. -/
theorem of_iff {value : Json} {fault : Fault} {symbol : Text}
    (isSymbol : fault.symbol? = some symbol) :
    fault.Of value ↔ ∃ entry, (givenOperators value).member? symbol = some entry ∧
      fault.OfEntry entry := by
  rcases of_symbol? isSymbol with rfl | rfl | rfl <;> exact Iff.rfl

/-- The place of a fault in the order of the checks, as far as they are about one entry. -/
def rank : Fault → Nat
  | notObject => 0
  | source => 1
  | operators => 2
  | fixity _ => 3
  | precedence _ => 4
  | associativity _ => 5

/-- One fault comes before another one: in entries for different operators as their keys do, and
else by its kind. -/
def Before (written : List Text) (first second : Fault) : Prop :=
  match first.symbol?, second.symbol? with
  | some one, some other =>
    Keyed.KeyBefore written one other ∨ one = other ∧ first.rank < second.rank
  | _, _ => first.rank < second.rank

/-- The fault is the first one of the value. -/
structure FirstOf (value : Json) (fault : Fault) : Prop where
  /-- The value has it. -/
  has : fault.Of value
  /-- It comes before any other one. -/
  before : ∀ other : Fault, other.Of value → other ≠ fault →
      fault.Before (givenOperators value).writtenKeys other

end Fault

/-! ## Reading members -/

/-- A precedence is read exactly if the number is a whole one from zero to nine. -/
theorem precedence?_eq_some_iff {number : Json} {n : Nat} :
    precedence? number = some n ↔ number.IsWhole n ∧ n ≤ maxPrecedence := by
  cases number with
  | natural value =>
    rw [Json.isWhole_natural_iff, precedence?]
    by_cases small : value ≤ maxPrecedence
    · simp only [small, ↓reduceIte, Option.some.injEq]
      exact (and_iff_left_of_imp fun same => same ▸ small).symm
    · simp only [small, ↓reduceIte, reduceCtorEq, false_iff, not_and]
      rintro rfl
      exact small
  | real d => rw [Json.isWhole_real_iff, precedence?, Option.filter_eq_some_iff, decide_eq_true_eq]
  | _ =>
    refine iff_of_false (fun found => nomatch found) ?_
    rintro ⟨⟨⟩, -⟩

/-- An associativity is read exactly by its name. -/
theorem associativity?_eq_some_iff {value : Json} {associativity : Associativity} :
    associativity? value = some associativity ↔ value = .string associativity.name := by
  cases value with
  | string name =>
    rw [associativity?, Associativity.ofName?, Json.string.injEq]
    constructor
    · intro found
      have isName := List.find?_some found
      exact (beq_iff_eq.mp isName).symm
    · rintro rfl
      cases associativity <;> rfl
  | _ => exact iff_of_false (fun found => nomatch found) (fun same => nomatch same)

/-- A directory of sources is read exactly if it is given. -/
theorem readSource_eq_ok_iff {value : Json} {src : Text} :
    readSource (value.member? "src") = .ok src ↔ GivesSource value src := by
  rw [GivesSource]
  cases value.member? "src" with
  | none => exact iff_of_false (fun found => nomatch found) (fun given => nomatch given.1)
  | some member =>
    cases member with
    | string text =>
      have content : ¬text.isBlank = true ↔ ∃ unit ∈ text, unit.isWhiteSpace = false := by
        simp [Text.isBlank]
      rw [readSource]
      constructor
      · intro read
        split at read
        next => cases read
        next notBlank =>
          obtain rfl := Except.ok.inj read
          exact ⟨rfl, content.mp notBlank⟩
      · rintro ⟨⟨⟩, some⟩
        rw [if_neg (content.mpr some)]
        rfl
    | _ => exact iff_of_false (fun found => nomatch found) (fun given => nomatch given.1)

/-- What is wrong with a directory of sources is that it is none. -/
theorem readSource_error {value : Option Json} {fault : Fault}
    (read : readSource value = .error fault) : fault = .source := by
  unfold readSource at read
  split at read
  · split at read
    · exact (Except.error.inj read).symm
    · cases read
  · exact (Except.error.inj read).symm

/-! ## Reading entries -/

/-- An entry is read: as the fixity that it gives, or with what is missing first. -/
inductive Reads (symbol : Text) (entry : Json) : Except Fault Fixity → Prop
  | noObject (none : ¬entry.IsObject) : Reads symbol entry (.error (.fixity symbol))
  | noPrecedence (object : entry.IsObject)
      (none : ¬∃ precedence, GivesPrecedence entry precedence) :
      Reads symbol entry (.error (.precedence symbol))
  | noAssociativity {precedence : Nat} (object : entry.IsObject)
      (given : GivesPrecedence entry precedence)
      (none : ¬∃ associativity, GivesAssociativity entry associativity) :
      Reads symbol entry (.error (.associativity symbol))
  | fixity {precedence : Nat} {associativity : Associativity} (object : entry.IsObject)
    (given : GivesPrecedence entry precedence) (named : GivesAssociativity entry associativity) :
    Reads symbol entry (.ok ⟨associativity, precedence⟩)

/-- A fixity is read from its entry. -/
theorem reads_readFixity (symbol : Text) (entry : Json) :
    Reads symbol entry (readFixity symbol entry) := by
  rw [readFixity]
  cases found : entry.members? with
  | none => exact .noObject (Json.members?_eq_none_iff.mp found)
  | some members =>
    have has := Json.hasMembers_of_members? found
    have precedence {n : Nat} :
        (members.get? "precedence" >>= precedence?) = some n ↔ GivesPrecedence entry n := by
      rw [has.get?, Option.bind_eq_bind, Option.bind_eq_some_iff, GivesPrecedence]
      simp only [precedence?_eq_some_iff, maxPrecedence]
    have associativity {side : Associativity} : (members.get? "associativity" >>= associativity?) =
          some side ↔ GivesAssociativity entry side := by
      rw [has.get?, Option.bind_eq_bind, Option.bind_eq_some_iff, GivesAssociativity]
      simp only [associativity?_eq_some_iff, exists_eq_right]
    dsimp only
    cases given : members.get? "precedence" >>= precedence? with
    | none =>
      refine .noPrecedence has.object ?_
      rintro ⟨n, gives⟩
      exact Option.some_ne_none n ((precedence.mpr gives).symm.trans given)
    | some n =>
      cases named : members.get? "associativity" >>= associativity? with
      | none =>
        refine .noAssociativity has.object (precedence.mp given) ?_
        rintro ⟨side, gives⟩
        exact Option.some_ne_none side ((associativity.mpr gives).symm.trans named)
      | some side => exact .fixity has.object (precedence.mp given) (associativity.mp named)

variable {symbol : Text} {entry : Json}

/-- A fixity that is read is the one that the entry gives. -/
theorem readFixity_ok {fixity : Fixity} (read : readFixity symbol entry = .ok fixity) :
    entry.IsObject ∧ GivesFixity entry fixity := by
  have reads := reads_readFixity symbol entry
  rw [read] at reads
  cases reads with
  | fixity object given named => exact ⟨object, ⟨_, rfl, given⟩, named⟩

/-- An object that gives a fixity has no fault. -/
theorem GivesFixity.not_ofEntry {fixity : Fixity} (gives : GivesFixity entry fixity)
    (object : entry.IsObject) (fault : Fault) : ¬fault.OfEntry entry := by
  obtain ⟨⟨precedence, -, given⟩, named⟩ := gives
  intro has
  cases fault with
  | fixity => exact has object
  | precedence => exact has ⟨precedence, given⟩
  | associativity => exact has ⟨_, named⟩
  | _ => exact has

/-- A fault that is found in an entry is the first one of the entry. -/
theorem readFixity_error {fault : Fault} (read : readFixity symbol entry = .error fault) :
    fault.symbol? = some symbol ∧ fault.OfEntry entry ∧
    ∀ other : Fault, other.symbol? = some symbol → other.OfEntry entry → other ≠ fault →
      fault.rank < other.rank := by
  have reads := reads_readFixity symbol entry
  rw [read] at reads
  cases reads with
  | noObject none =>
    refine ⟨rfl, none, fun other isSymbol has different => ?_⟩
    rcases Fault.of_symbol? isSymbol with rfl | rfl | rfl
    · exact absurd rfl different
    all_goals simp [Fault.rank]
  | noPrecedence object none =>
    refine ⟨rfl, none, fun other isSymbol has different => ?_⟩
    rcases Fault.of_symbol? isSymbol with rfl | rfl | rfl
    · exact absurd object has
    · exact absurd rfl different
    · simp [Fault.rank]
  | noAssociativity object given none =>
    refine ⟨rfl, none, fun other isSymbol has different => ?_⟩
    rcases Fault.of_symbol? isSymbol with rfl | rfl | rfl
    · exact absurd object has
    · exact absurd ⟨_, given⟩ has
    · exact absurd rfl different

/-- The fixities that are read are those of the entries in their order, without the one under the
inert key. -/
theorem readFixities_ok {entries : List (Text × Json)} {found : List (Text × Fixity)}
    (read : readFixities entries = .ok found) :
    (∀ entry ∈ entries, ∃ fixity, readFixity entry.1 entry.2 = .ok fixity) ∧
    found.map Prod.fst = (entries.map Prod.fst).filter (· ≠ Text.ofString inertKey) ∧
    ∀ operator ∈ found, ∃ entry, (operator.1, entry) ∈ entries ∧
      readFixity operator.1 entry = .ok operator.2 := by
  induction entries generalizing found with
  | nil =>
    obtain rfl := Except.ok.inj read
    simp
  | cons first rest ih =>
    obtain ⟨symbol, entry⟩ := first
    rw [readFixities] at read
    cases isFirst : readFixity symbol entry with
    | error fault =>
      rw [isFirst] at read
      cases read
    | ok fixity =>
      cases further : readFixities rest with
      | error fault =>
        rw [isFirst, further] at read
        cases read
      | ok others =>
        rw [isFirst, further] at read
        obtain rfl := Except.ok.inj read
        obtain ⟨all, keys, given⟩ := ih further
        have inRest : ∀ operator ∈ others, ∃ entry', (operator.1, entry') ∈ (symbol, entry) ::
              rest ∧ readFixity operator.1 entry' = .ok operator.2 := fun operator member =>
          (given operator member).imp fun _ both => ⟨List.mem_cons_of_mem _ both.1, both.2⟩
        refine ⟨List.forall_mem_cons.mpr ⟨⟨fixity, isFirst⟩, all⟩, ?_⟩
        by_cases inert : symbol = Text.ofString inertKey
        · rw [if_pos inert]
          exact ⟨by simp [inert, keys], inRest⟩
        · rw [if_neg inert]
          exact ⟨by simp [inert, keys],
            List.forall_mem_cons.mpr ⟨⟨entry, .head _, isFirst⟩, inRest⟩⟩

/-- What is wrong with entries is wrong with the first one that has a fault. -/
theorem readFixities_error {entries : List (Text × Json)} {fault : Fault}
    (read : readFixities entries = .error fault) :
    ∃ before symbol entry after, entries = before ++ (symbol, entry) :: after ∧
      (∀ earlier ∈ before, ∃ fixity, readFixity earlier.1 earlier.2 = .ok fixity) ∧
      readFixity symbol entry = .error fault := by
  induction entries with
  | nil => cases read
  | cons first rest ih =>
    obtain ⟨symbol, entry⟩ := first
    rw [readFixities] at read
    cases isFirst : readFixity symbol entry with
    | error found =>
      rw [isFirst] at read
      obtain rfl := Except.error.inj read
      exact ⟨[], symbol, entry, rest, rfl, List.forall_mem_nil _, isFirst⟩
    | ok fixity =>
      cases further : readFixities rest with
      | ok others =>
        rw [isFirst, further] at read
        cases read
      | error found =>
        rw [isFirst, further] at read
        obtain rfl := Except.error.inj read
        obtain ⟨before, other, value, after, rfl, earlier, found⟩ := ih further
        exact ⟨(symbol, entry) :: before, other, value, after, rfl,
          List.forall_mem_cons.mpr ⟨⟨fixity, isFirst⟩, earlier⟩, found⟩

/-! ## Reading a configuration -/

variable {value : Json} {fault : Fault}

/-- The operators are read from what is given for them. -/
theorem readOperators_eq (value : Json) : readOperators (value.member? "operators") =
    match (givenOperators value).members? with
    | none => .error .operators
    | some members => (readFixities members.entries).map Keyed.mk := by
  rw [givenOperators]
  cases value.member? "operators" with
  | none =>
    have nothing : (Json.object []).members? = some .empty := by
      simp [Json.members?, Keyed.ofList, Keyed.merge, Keyed.inMemberOrder, Keyed.empty]
    rw [Option.getD_none, nothing]
    rfl
  | some given =>
    rw [Option.getD_some, readOperators]
    cases given.members? with
    | none => rfl
    | some members => cases readFixities members.entries <;> rfl

/-- The fixities that are read from members are those that are given. -/
theorem registers_of_readFixities {given : Json} {members : Keyed Json}
    (has : given.HasMembers members) {found : List (Text × Fixity)}
    (read : readFixities members.entries = .ok found) : Registers given ⟨found⟩ := by
  obtain ⟨-, keys, fixities⟩ := readFixities_ok read
  have keys : (⟨found⟩ : Registry).keys = members.keys.filter (· ≠ Text.ofString inertKey) := keys
  refine ⟨fun symbol => ?_, ?_, fun symbol fixity isFixity => ?_⟩
  · rw [keys, List.mem_filter, has.keys, decide_eq_true_eq, and_comm]
  · rw [keys]
    exact has.ordered.filter _
  · have distinct : (⟨found⟩ : Registry).Distinct := by
      rw [Keyed.Distinct, keys]
      exact has.distinct.filter _
    obtain ⟨entry, member, read⟩ := fixities _ ((Keyed.get?_eq_some_iff distinct).mp isFixity)
    exact ⟨entry, (has.entries symbol entry).mp member, (readFixity_ok read).2⟩

/-- A fault that is found in members is the first one of a value without other faults. -/
theorem firstOf_of_readFixities {members : Keyed Json} (object : value.IsObject)
    (source : ∃ src, GivesSource value src) (has : (givenOperators value).HasMembers members)
    (read : readFixities members.entries = .error fault) : fault.FirstOf value := by
  obtain ⟨before, symbol, entry, after, all, earlier, found⟩ := readFixities_error read
  obtain ⟨isSymbol, isFault, first⟩ := readFixity_error found
  have ordered := has.ordered
  rw [Keyed.keys, all, List.map_append, List.map_cons, List.pairwise_append,
    List.pairwise_cons] at ordered
  have member : (givenOperators value).member? symbol = some entry :=
    (has.entries symbol entry).mp (all ▸ List.mem_append_right _ (.head _))
  refine ⟨(Fault.of_iff isSymbol).mpr ⟨entry, member, isFault⟩, fun other isOther different => ?_⟩
  rw [Fault.Before, isSymbol]
  cases otherSymbol : other.symbol? with
  | none =>
    -- the value has none of the faults outside of entries
    cases other with
    | notObject => exact absurd object isOther
    | source => exact absurd source isOther
    | operators => exact absurd has.object isOther
    | _ => cases otherSymbol
  | some key =>
    obtain ⟨otherEntry, otherMember, isOther⟩ := (Fault.of_iff otherSymbol).mp isOther
    have position : (key, otherEntry) ∈ before ++ (symbol, entry) :: after :=
      all ▸ (has.entries key otherEntry).mpr otherMember
    rcases List.mem_append.mp position with inFront | atOrBehind
    · obtain ⟨fixity, read⟩ := earlier _ inFront
      obtain ⟨isObject, gives⟩ := readFixity_ok read
      exact absurd isOther (gives.not_ofEntry isObject other)
    · rcases List.mem_cons.mp atOrBehind with same | behind
      · obtain ⟨rfl, rfl⟩ := Prod.mk.inj same
        exact .inr ⟨rfl, first other otherSymbol isOther different⟩
      · exact .inl (ordered.2.1.1 key (List.mem_map_of_mem behind))

/-- A value is read: as what it says, or with the fault that is found first. -/
inductive ReadsValue (value : Json) : Except Fault (Text × Registry) → Prop
  | noObject (none : ¬value.IsObject) : ReadsValue value (.error .notObject)
  | noSource (object : value.IsObject) (none : ¬∃ src, GivesSource value src) :
      ReadsValue value (.error .source)
  | noOperators {src : Text} (object : value.IsObject) (source : GivesSource value src)
    (none : ¬(givenOperators value).IsObject) : ReadsValue value (.error .operators)
  | entry {src : Text} {members : Keyed Json} {fault : Fault} (object : value.IsObject)
      (source : GivesSource value src) (has : (givenOperators value).HasMembers members)
      (read : readFixities members.entries = .error fault) : ReadsValue value (.error fault)
  | configuration {src : Text} {members : Keyed Json} {found : List (Text × Fixity)}
      (object : value.IsObject) (source : GivesSource value src)
      (has : (givenOperators value).HasMembers members)
      (read : readFixities members.entries = .ok found) : ReadsValue value (.ok (src, ⟨found⟩))

/-- A value is read from its two members. -/
theorem readsValue_ofJson (value : Json) : ReadsValue value (ofJson value) := by
  rw [ofJson]
  cases inValue : value.members? with
  | none => exact .noObject (Json.members?_eq_none_iff.mp inValue)
  | some members =>
    have has := Json.hasMembers_of_members? inValue
    simp only [has.get?, readOperators_eq]
    cases source : readSource (value.member? "src") with
    | error fault =>
      obtain rfl := readSource_error source
      refine .noSource has.object ?_
      rintro ⟨src, gives⟩
      rw [readSource_eq_ok_iff.mpr gives] at source
      cases source
    | ok src =>
      have gives := readSource_eq_ok_iff.mp source
      cases given : (givenOperators value).members? with
      | none => exact .noOperators has.object gives (Json.members?_eq_none_iff.mp given)
      | some operators =>
        have hasOperators := Json.hasMembers_of_members? given
        dsimp only
        cases read : readFixities operators.entries with
        | error fault => exact .entry has.object gives hasOperators read
        | ok found => exact .configuration has.object gives hasOperators read

/-- A value that is read is a configuration, and what is read is what it says. -/
theorem ofJson_ok {src : Text} {operators : Registry} (read : ofJson value = .ok (src, operators)) :
    Valid value ∧ GivesSource value src ∧ Registers (givenOperators value) operators := by
  have reads := readsValue_ofJson value
  rw [read] at reads
  cases reads with
  | configuration object source has readEntries =>
    refine ⟨⟨object, ⟨src, source⟩, fun given isGiven => ?_,
      fun given symbol entry isGiven member => ?_⟩, source,
      registers_of_readFixities has readEntries⟩
    · rw [givenOperators, isGiven] at has
      exact has.object
    · rw [givenOperators, isGiven] at has
      obtain ⟨fixity, isFixity⟩ :=
        (readFixities_ok readEntries).1 _ ((has.entries symbol entry).mpr member)
      obtain ⟨isObject, gives⟩ := readFixity_ok isFixity
      exact ⟨isObject, fixity, gives⟩

/-- A fault that is found is the first one. -/
theorem ofJson_error (read : ofJson value = .error fault) : fault.FirstOf value := by
  have reads := readsValue_ofJson value
  rw [read] at reads
  cases reads with
  | noObject none =>
    refine ⟨none, fun other _ different => ?_⟩
    cases other with
    | notObject => exact absurd rfl different
    | _ => simp [Fault.Before, Fault.symbol?, Fault.rank]
  | noSource object none =>
    refine ⟨none, fun other isOther different => ?_⟩
    cases other with
    | notObject => exact absurd object isOther
    | source => exact absurd rfl different
    | _ => simp [Fault.Before, Fault.symbol?, Fault.rank]
  | noOperators object source none =>
    refine ⟨none, fun other isOther different => ?_⟩
    cases other with
    | notObject => exact absurd object isOther
    | source => exact absurd ⟨_, source⟩ isOther
    | operators => exact absurd rfl different
    | _ => simp [Fault.Before, Fault.symbol?, Fault.rank]
  | entry object source has readEntries =>
    exact firstOf_of_readFixities object ⟨_, source⟩ has readEntries

/-- A configuration has no fault. -/
theorem Valid.not_of (valid : Valid value) (fault : Fault) : ¬fault.Of value := by
  have given : givenOperators value = .object [] ∨
      value.member? "operators" = some (givenOperators value) := by
    rw [givenOperators]
    cases value.member? "operators" <;> simp
  intro isFault
  cases symbol : fault.symbol? with
  | none =>
    cases fault with
    | notObject => exact isFault valid.object
    | source => exact isFault valid.source
    | operators =>
      rcases given with nothing | isGiven
      · exact isFault ⟨[], nothing⟩
      · exact isFault (valid.operators _ isGiven)
    | _ => cases symbol
  | some key =>
    obtain ⟨entry, member, ofEntry⟩ := (Fault.of_iff symbol).mp isFault
    rcases given with nothing | isGiven
    · rw [nothing] at member
      cases member
    · obtain ⟨object, fixity, gives⟩ := valid.fixities _ key entry isGiven member
      exact gives.not_ofEntry object fault ofEntry

/-- A value has one first fault. -/
theorem Fault.FirstOf.eq {first second : Fault} (isFirst : first.FirstOf value)
    (isSecond : second.FirstOf value) : first = second := by
  by_contra different
  have before := isFirst.before second isSecond.has (Ne.symm different)
  have after := isSecond.before first isFirst.has different
  unfold Fault.Before at before after
  cases one : first.symbol? with
  | none =>
    rw [one] at before after
    cases other : second.symbol? <;> rw [other] at before after <;> exact Nat.lt_asymm before after
  | some key =>
    cases other : second.symbol? with
    | none =>
      rw [one, other] at before after
      exact Nat.lt_asymm before after
    | some otherKey =>
      rw [one, other] at before after
      rcases before with before | ⟨rfl, less⟩
      · rcases after with after | ⟨rfl, -⟩
        · exact before.asymm after
        · exact before.asymm before
      · rcases after with after | ⟨-, more⟩
        · exact after.asymm after
        · exact Nat.lt_asymm less more

/-! ## Loading -/

/-- The member that a fault is in: none for the value itself. -/
def Fault.field? : Fault → Option Text
  | notObject => none
  | source => some "src"
  | operators => some "operators"
  | fixity symbol => some ("operators." ++ symbol)
  | precedence symbol => some ("operators." ++ symbol ++ ".precedence")
  | associativity symbol => some ("operators." ++ symbol ++ ".associativity")

/-- What the place of a fault has to be. -/
def Fault.requirement : Fault → String
  | notObject => "be an object"
  | source => "be a non-empty string"
  | operators => "map operators to fixities"
  | fixity _ => "be an object with precedence and associativity"
  | precedence _ => "be an integer from 0 to 9"
  | associativity _ => "be one of left, right, none"

/-- A fault is reported with the path of the file, the member and what that has to be. -/
theorem Fault.message_eq (path : Text) (fault : Fault) : fault.message path =
    match fault.field? with
    | none => "Config at " ++ path ++ " must " ++ fault.requirement
    | some field =>
      "Config field \"" ++ field ++ "\" in " ++ path ++ " must " ++ fault.requirement := by
  have split : Text.ofString " must be an object" = " must " ++ Text.ofString "be an object" := by
    decide
  cases fault with
  | notObject => rw [message, split, ← List.append_assoc]; rfl
  | _ => rfl

variable {files : FileTree} {cwd text : Text} {name : Option Text}

/-- A file with a value is loaded as the value is read. -/
theorem load_eq (isThere : files.readText (locate cwd name) = .ok text)
      (isJson : Json.read? text = some value) :
    load files cwd name =
      match ofJson value with
      | .error fault => .error (.invalid (locate cwd name) fault)
      | .ok (src, operators) =>
        .ok ⟨src, operators, Path.directoryOf (locate cwd name), locate cwd name⟩ := by
  have contains : files.contains (locate cwd name) = true := by
    rw [FileTree.readText] at isThere
    rw [FileTree.contains]
    split at isThere
    · cases isThere
    · cases isThere
    · rename_i found
      rw [found]
      rfl
  simp only [load, contains, isThere, isJson, Bool.not_true, Bool.false_eq_true, ↓reduceIte,
    Except.mapError, bind, Except.bind]
  cases ofJson value <;> rfl

/-- A file with a value is loaded exactly if the value is a configuration, with the directory of
sources and the fixities that it gives and with the place of the file; otherwise the first fault of
the value is reported, with the path of the file and the member that the fault is in. -/
theorem configurations_are_checked (isThere : files.readText (locate cwd name) = .ok text)
    (isJson : Json.read? text = some value) :
    ((∃ config, load files cwd name = .ok config) ↔ Valid value) ∧
    (∀ config, load files cwd name = .ok config → GivesSource value config.src ∧
      Registers (givenOperators value) config.operators ∧ config.path = locate cwd name ∧
      config.rootDir = Path.directoryOf (locate cwd name)) ∧
    (∀ error, load files cwd name = .error error ↔
      ∃ fault : Fault, fault.FirstOf value ∧ error = .invalid (locate cwd name) fault) ∧
    ∀ fault path, (Error.invalid path fault).message =
      match fault.field? with
      | none => "Config at " ++ path ++ " must " ++ fault.requirement
      | some field =>
        "Config field \"" ++ field ++ "\" in " ++ path ++ " must " ++ fault.requirement := by
  rw [load_eq isThere isJson]
  cases read : ofJson value with
  | error fault =>
    have first := ofJson_error read
    refine ⟨⟨fun ⟨_, loaded⟩ => (nomatch loaded), fun valid =>
        absurd first.has (valid.not_of fault)⟩, fun _ loaded => (nomatch loaded), fun error => ?_,
      fun fault path => fault.message_eq path⟩
    constructor
    · intro failed
      exact ⟨fault, first, (Except.error.inj failed).symm⟩
    · rintro ⟨other, isFirst, rfl⟩
      rw [isFirst.eq first]
  | ok result =>
    obtain ⟨src, operators⟩ := result
    obtain ⟨valid, source, registers⟩ := ofJson_ok read
    refine ⟨⟨fun _ => valid, fun _ => ⟨_, rfl⟩⟩, ?_, fun error => ?_, fun fault path =>
        fault.message_eq path⟩
    · rintro config loaded
      obtain rfl := Except.ok.inj loaded
      exact ⟨source, registers, rfl, rfl⟩
    · constructor
      · intro failed
        cases failed
      · rintro ⟨fault, first, -⟩
        exact absurd first.has (valid.not_of fault)

/-- A configuration with two operators, of which the second one is an index. -/
def sampleText : Text :=
  "\x7b\"operators\":\x7b\"|.\":\x7b\"precedence\":5.0,\"associativity\":\"left\"\x7d," ++
    "\"10\":\x7b\"precedence\":9,\"associativity\":\"none\"\x7d\x7d,\"src\":\"lib\"\x7d"

/-- The same with a fault in each operator. -/
def faultyText : Text :=
  "\x7b\"operators\":\x7b\"|.\":null,\"10\":\x7b\"precedence\":9.5\x7d\x7d,\"src\":\"lib\"\x7d"

/-- A directory with both of them. -/
def sampleFiles : FileTree :=
  .directory [("app", .directory [ ("groom.json", .file (sampleText.map UInt16.toUInt8)),
    ("faulty.json", .file (faultyText.map UInt16.toUInt8))])]

/-- The operators of the one file are loaded in member order, and the fault of the first one in that
order is found in the other file. -/
theorem sample_files_are_checked :
    sampleFiles.readText (locate "/app" none) = .ok sampleText ∧
    sampleFiles.readText (locate "/app" (some "faulty.json")) = .ok faultyText ∧
    (∃ value, Json.read? sampleText = some value ∧ Valid value ∧ GivesSource value "lib" ∧
      Registers (givenOperators value) ⟨[("10", ⟨.none, 9⟩), ("|.", ⟨.left, 5⟩)]⟩) ∧
    ∃ value, Json.read? faultyText = some value ∧ (Fault.precedence "10").FirstOf value := by
  have isThere : sampleFiles.readText (locate "/app" none) = .ok sampleText := by decide +kernel
  have otherIsThere : sampleFiles.readText (locate "/app" (some "faulty.json")) =
        .ok faultyText := by decide +kernel
  obtain ⟨value, isJson⟩ : ∃ value, Json.read? sampleText = some value :=
    Option.isSome_iff_exists.mp (by decide +kernel)
  obtain ⟨other, otherIsJson⟩ : ∃ value, Json.read? faultyText = some value :=
    Option.isSome_iff_exists.mp (by decide +kernel)
  obtain ⟨loads, results, -⟩ := configurations_are_checked isThere isJson
  obtain ⟨-, -, fails, -⟩ := configurations_are_checked otherIsThere otherIsJson
  have loaded : load sampleFiles "/app" none = .ok ⟨"lib",
        ⟨[("10", ⟨.none, 9⟩), ("|.", ⟨.left, 5⟩)]⟩, "/app", "/app/groom.json"⟩ := by decide +kernel
  have failed : load sampleFiles "/app" (some "faulty.json") =
        .error (.invalid "/app/faulty.json" (.precedence "10")) := by
    decide +kernel
  obtain ⟨source, registers, -, -⟩ := results _ loaded
  obtain ⟨fault, first, same⟩ := (fails _).mp failed
  obtain ⟨-, rfl⟩ := Error.invalid.inj same
  exact ⟨isThere, otherIsThere, ⟨value, isJson, loads.mp ⟨_, loaded⟩, source, registers⟩, other,
    otherIsJson, first⟩

/-- A configuration with one operator, the inert key. -/
def inertText : Text :=
  "\x7b\"src\":\"s\",\"operators\":\x7b\"__proto__\":" ++
    "\x7b\"precedence\":1,\"associativity\":\"left\"\x7d\x7d\x7d"

/-- A directory with it. -/
def inertFiles : FileTree :=
  .directory [("app", .directory [("groom.json", .file (inertText.map UInt16.toUInt8))])]

/-- The operators that are loaded do not have all the keys that are given: an entry under the inert
key is lost. -/
theorem inert_entry_is_lost :
    ¬∀ files cwd name text value config, FileTree.readText files (locate cwd name) = .ok text →
      Json.read? text = some value → load files cwd name = .ok config →
      ∀ symbol, symbol ∈ config.operators.keys ↔ symbol ∈ (givenOperators value).writtenKeys := by
  intro allKept
  have isThere : inertFiles.readText (locate "/app" none) = .ok inertText := by decide +kernel
  obtain ⟨value, isJson, written⟩ : ∃ value, Json.read? inertText = some value ∧
      (givenOperators value).writtenKeys = [Text.ofString inertKey] := by
    have keys : (Json.read? inertText).map (fun value => (givenOperators value).writtenKeys) =
        some [Text.ofString inertKey] := by decide +kernel
    exact Option.map_eq_some_iff.mp keys
  have loaded : load inertFiles "/app" none = .ok ⟨"s", ⟨[]⟩, "/app", "/app/groom.json"⟩ := by
    decide +kernel
  have kept := (allKept _ _ _ _ _ _ isThere isJson loaded (Text.ofString inertKey)).mpr
    (written ▸ .head _)
  cases kept

end Config

end Marginalia
