import Mathlib.Data.List.Induction
import Marginalia.Proofs.Layers
import Marginalia.Proofs.Spelling.Source

/-!
# Layered registries

Registries are merged by writing one layer over another: an operator of both keeps its place and
takes the later fixity. A module makes up one layer, in which the first declaration of an operator
counts and every further one is reported.

Main statement: `registries_are_layered`.
-/

namespace Marginalia

/-! ## First and further declarations -/

/-- Every entry of a list together with those before it. -/
def withEarlier {α : Type} (entries : List α) : List (List α × α) :=
  entries.zipIdx.map fun (entry, i) => (entries.take i, entry)

/-- The last entry has all others before it. -/
theorem withEarlier_concat {α : Type} (entries : List α) (last : α) :
    withEarlier (entries ++ [last]) = withEarlier entries ++ [(entries, last)] := by
  rw [withEarlier, withEarlier, List.zipIdx_append, List.map_append]
  congr 1
  · refine List.map_congr_left fun found member => ?_
    have inside : found.2 < entries.length := by
      obtain ⟨-, upper, -⟩ := List.mem_zipIdx member
      omega
    exact congrArg (·, found.1) (List.take_append_of_le_length (Nat.le_of_lt inside))
  · simp

/-- The operators that entries declare fixities for, in order. -/
def declaredSymbols (entries : List (Located TopLevel)) : List Text :=
  (fixityEntries entries).map Prod.fst

/-- The declarations of fixities for operators that were not declared before, in order. -/
def firstFixities (entries : List (Located TopLevel)) : List (Text × Fixity) :=
  (withEarlier entries).filterMap fun (earlier, entry) =>
    entry.value.fixityEntry?.filter fun declares => declares.1 ∉ declaredSymbols earlier

/-- The operators and places of the declarations for operators that were declared before, in
order. -/
def furtherFixities (entries : List (Located TopLevel)) : List (Text × Span) :=
  (withEarlier entries).filterMap fun (earlier, entry) =>
    (entry.value.fixityEntry?.filter fun declares => declares.1 ∈ declaredSymbols earlier).map
      fun declares => (declares.1, entry.span)

/-- One more entry declares no fixity, or one for an operator that was declared before, or else one
for a new operator. -/
inductive AddsDeclaration (entries : List (Located TopLevel))
    (entry : Located TopLevel) : Prop where
  | none (found : entry.value.fixityEntry? = .none)
        (all : fixityEntries (entries ++ [entry]) = fixityEntries entries)
        (first : firstFixities (entries ++ [entry]) = firstFixities entries)
        (further : furtherFixities (entries ++ [entry]) = furtherFixities entries)
  | known {symbol : Text} {fixity : Fixity}
        (found : entry.value.fixityEntry? = some (symbol, fixity))
        (known : symbol ∈ declaredSymbols entries)
        (all : fixityEntries (entries ++ [entry]) = fixityEntries entries ++ [(symbol, fixity)])
        (first : firstFixities (entries ++ [entry]) = firstFixities entries)
        (further : furtherFixities (entries ++ [entry]) = furtherFixities entries ++
        [(symbol, entry.span)])
  | new {symbol : Text} {fixity : Fixity} (found : entry.value.fixityEntry? = some (symbol, fixity))
      (new : symbol ∉ declaredSymbols entries)
      (all : fixityEntries (entries ++ [entry]) = fixityEntries entries ++ [(symbol, fixity)])
      (first : firstFixities (entries ++ [entry]) = firstFixities entries ++ [(symbol, fixity)])
      (further : furtherFixities (entries ++ [entry]) = furtherFixities entries)

/-- What one more entry adds to the declarations. -/
theorem addsDeclaration (entries : List (Located TopLevel)) (entry : Located TopLevel) :
    AddsDeclaration entries entry := by
  cases found : entry.value.fixityEntry? with
  | none =>
    refine .none found ?_ ?_ ?_
    all_goals simp [fixityEntries, firstFixities, furtherFixities, withEarlier_concat, found]
  | some declares =>
    obtain ⟨symbol, fixity⟩ := declares
    by_cases known : symbol ∈ declaredSymbols entries
    · refine .known found known ?_ ?_ ?_
      all_goals simp [fixityEntries, firstFixities, furtherFixities,
        withEarlier_concat, found, known]
    · have isFirst : (some (symbol, fixity)).filter (fun declares => decide
            (declares.1 ∉ declaredSymbols entries)) = some (symbol, fixity) := by simp [known]
      refine .new found known (by simp [fixityEntries, found]) ?_
        (by simp [furtherFixities, withEarlier_concat, found, known])
      rw [firstFixities, firstFixities, withEarlier_concat, List.filterMap_append]
      simp only [List.filterMap_cons, List.filterMap_nil, found, isFirst]

/-- The operators of the first declarations are those of all. -/
theorem mem_firstFixities {entries : List (Located TopLevel)} {symbol : Text} :
    symbol ∈ (firstFixities entries).map Prod.fst ↔ symbol ∈ declaredSymbols entries := by
  induction entries using List.reverseRecOn with
  | nil => exact Iff.rfl
  | append_singleton entries entry ih =>
    rw [declaredSymbols] at ih ⊢
    cases addsDeclaration entries entry with
    | none _ all first _ => rw [all, first, ih]
    | known _ known all first _ =>
      rw [all, first, ih, List.map_append, List.mem_append]
      refine ⟨.inl, Or.rec id fun isOther => ?_⟩
      rw [List.mem_singleton.mp isOther]
      exact known
    | new _ _ all first _ =>
      rw [all, first, List.map_append, List.map_append, List.mem_append, List.mem_append, ih]

/-- First declarations are for different operators. -/
theorem distinct_firstFixities (entries : List (Located TopLevel)) :
    (⟨firstFixities entries⟩ : Registry).Distinct := by
  induction entries using List.reverseRecOn with
  | nil => exact List.nodup_nil
  | append_singleton entries entry ih =>
    cases addsDeclaration entries entry with
    | none _ _ first _ => rwa [first]
    | known _ _ _ first _ => rwa [first]
    | new _ new _ first _ =>
      rw [first, Keyed.Distinct, Keyed.keys, List.map_append]
      refine List.nodup_append.mpr ⟨ih, List.nodup_singleton _, ?_⟩
      rintro other member _ isLast rfl
      obtain rfl := List.mem_singleton.mp isLast
      exact new (mem_firstFixities.mp member)

/-- An operator has the fixity of its first declaration, in the list of first declarations as in
that of all. -/
theorem get?_firstFixities (entries : List (Located TopLevel)) (symbol : Text) :
    (⟨firstFixities entries⟩ : Registry).get? symbol =
      (⟨fixityEntries entries⟩ : Registry).get? symbol := by
  induction entries using List.reverseRecOn with
  | nil => rfl
  | append_singleton entries entry ih =>
    cases addsDeclaration entries entry with
    | none _ all first _ => rw [all, first, ih]
    | @known other fixity _ known all first _ =>
      rw [all, first, ih, Keyed.get?_concat]
      by_cases same : other = symbol
      · subst same
        have some : (⟨fixityEntries entries⟩ : Registry).get? other ≠ none :=
          fun none => Keyed.get?_eq_none_iff.mp none known
        obtain ⟨value, found⟩ := Option.ne_none_iff_exists'.mp some
        rw [found]
        rfl
      · rw [if_neg same, Option.or_none]
    | new _ _ all first _ => rw [all, first, Keyed.get?_concat, Keyed.get?_concat, ih]

/-- The fixities that a module declares are the first declarations, and the errors are about the
further ones. -/
theorem Module.declaredFixities_eq (module : Module) :
    module.declaredFixities = ⟨⟨firstFixities module.body⟩,
      (furtherFixities module.body).map fun (symbol, span) => .duplicate symbol span⟩ := by
  rw [declaredFixities]
  induction module.body using List.reverseRecOn with
  | nil => rfl
  | append_singleton entries entry ih =>
    rw [List.foldl_concat, ih]
    cases addsDeclaration entries entry with
    | none found _ first further => rw [DeclaredFixities.add_none found, first, further]
    | @known symbol fixity found known _ first further =>
      have contains : (⟨firstFixities entries⟩ : Registry).contains symbol = true := by
        rw [← Bool.not_eq_false, Keyed.contains_eq_false_iff, not_not]
        exact mem_firstFixities.mpr known
      rw [DeclaredFixities.add_known found contains, first, further, List.map_append]
      rfl
    | @new symbol fixity found new _ first further =>
      have new : (⟨firstFixities entries⟩ : Registry).contains symbol = false :=
        Keyed.contains_eq_false_iff.mpr fun member => new (mem_firstFixities.mp member)
      rw [DeclaredFixities.add_new found new, first, further]

/-! ## Precedences of a source -/

/-- Every word of a spelling is spelled. -/
theorem Spelled.spells_of_mem {words : List Word} {tokens : List Token}
    (spelled : Spelled words tokens) : ∀ word ∈ words, ∃ part, word.Spells part := by
  induction spelled with
  | nil => exact List.forall_mem_nil _
  | cons spells _ ih => exact List.forall_mem_cons.mpr ⟨⟨_, spells⟩, ih⟩

/-- Precedences that are read go from zero to nine. -/
theorem precedence_le {source : Text} {module : Module} (read : Module.parse source = .ok module)
    {entry : Located TopLevel} (member : entry ∈ module.body) {declared : FixityDeclaration}
    (isFixity : entry.value = .fixity declared) : declared.precedence.value ≤ maxPrecedence := by
  obtain ⟨tokens, -, -, spelled⟩ := module_spelled read
  have inEntry : Word.precedence declared.precedence.value ∈ entry.value.words := by
    rw [isFixity]
    exact .tail _ (.head _)
  have inModule : Word.precedence declared.precedence.value ∈ module.words :=
    List.mem_append_right _ (List.mem_append_right _
        (List.mem_flatMap.mpr ⟨entry, member, inEntry⟩))
  obtain ⟨_, token, -, -, value⟩ := spelled.spells_of_mem _ inModule
  rw [precedenceOf?] at value
  exact of_decide_eq_true (Option.filter_eq_some_iff.mp value).2

/-- The fixities that a module declares were read from entries of it. -/
theorem mem_fixityEntries {entries : List (Located TopLevel)} {declares : Text × Fixity}
    (member : declares ∈ fixityEntries entries) :
    ∃ entry ∈ entries, ∃ declared : FixityDeclaration, entry.value = .fixity declared ∧ declares =
      (declared.operator.value, ⟨declared.associativity, declared.precedence.value⟩) := by
  obtain ⟨entry, inEntries, found⟩ := List.mem_filterMap.mp member
  cases value : entry.value with
  | fixity declared =>
    rw [value] at found
    exact ⟨entry, inEntries, declared, value, (Option.some.inj found).symm⟩
  | _ =>
    rw [value] at found
    cases found

/-- First declarations are declarations. -/
theorem firstFixities_subset (entries : List (Located TopLevel)) :
    firstFixities entries ⊆ fixityEntries entries := by
  induction entries using List.reverseRecOn with
  | nil => exact List.Subset.refl _
  | append_singleton entries entry ih =>
    cases addsDeclaration entries entry with
    | none _ all first _ => rwa [all, first]
    | known _ _ all first _ =>
      rw [all, first]
      exact List.subset_append_of_subset_left _ ih
    | new _ _ all first _ =>
      rw [all, first]
      exact List.append_subset.mpr ⟨List.subset_append_of_subset_left _ ih,
        List.subset_append_right _ _⟩

/-! ## Main statement -/

/-- Registries are layered. Those without repeated operators are merged associatively, with the
empty one as identity and without effect on themselves: the operators of the base keep their places,
new ones follow, and the later fixity counts. A module makes up a registry of its first declarations
and reports the further ones at their places, both in order; where it was read from a source,
precedences go from zero to nine. Over the core library and a configuration, an operator has the
fixity of its first declaration in the module, or else that of the configuration, or else that of
the core library, or else it groups to the left with precedence nine. -/
theorem registries_are_layered :
    (∀ first second third : Registry, first.Distinct → second.Distinct → third.Distinct →
      (first.merge second).merge third = first.merge (second.merge third) ∧
      Keyed.empty.merge first = first ∧ first.merge .empty = first ∧ first.merge first = first ∧
      (first.merge second).Distinct ∧
      (first.merge second).keys = first.keys ++ second.keys.filter (· ∉ first.keys) ∧
      ∀ symbol, (first.merge second).get? symbol = (second.get? symbol).or (first.get? symbol)) ∧
    (∀ module : Module, module.declaredFixities.registry = ⟨firstFixities module.body⟩ ∧
      (∀ symbol, module.declaredFixities.registry.get? symbol =
      (⟨fixityEntries module.body⟩ : Registry).get? symbol) ∧ module.declaredFixities.errors =
      (furtherFixities module.body).map fun (symbol, span) => .duplicate symbol span) ∧
    (∀ (source : Text) (module : Module), Module.parse source = .ok module → ∀ entry ∈
      module.declaredFixities.registry.entries, 0 ≤ entry.2.precedence ∧ entry.2.precedence ≤ 9) ∧
    ∀ (config : Registry) (module : Module) (symbol : Text), config.Distinct →
      Registry.fixity ((Registry.builtin.merge config).merge module.declaredFixities.registry)
      symbol = ((⟨fixityEntries module.body⟩ : Registry).get? symbol).getD
      ((config.get? symbol).getD ((Registry.builtin.get? symbol).getD ⟨.left, 9⟩)) := by
  refine ⟨?_, fun module => ?_, ?_, ?_⟩
  · intro first second third distinctFirst distinctSecond distinctThird
    exact ⟨Keyed.merge_assoc distinctFirst distinctSecond distinctThird,
      Keyed.empty_merge distinctFirst, Keyed.merge_empty first, Keyed.merge_self distinctFirst,
      distinctFirst.merge distinctSecond, Keyed.keys_merge first distinctSecond,
      Keyed.get?_merge_of_distinct first distinctSecond⟩
  · rw [module.declaredFixities_eq]
    exact ⟨rfl, get?_firstFixities module.body, rfl⟩
  · intro source module read entry member
    rw [module.declaredFixities_eq] at member
    obtain ⟨found, inBody, declared, isFixity, rfl⟩ :=
      mem_fixityEntries (firstFixities_subset _ member)
    exact Fixity.declarable_of_le _ (precedence_le read inBody isFixity)
  · intro config module symbol distinct
    rw [module.declaredFixities_eq, Registry.fixity, Keyed.get?_merge_of_distinct _
        (distinct_firstFixities _), Keyed.get?_merge_of_distinct _ distinct, get?_firstFixities]
    cases (⟨fixityEntries module.body⟩ : Registry).get? symbol with
    | some fixity => rfl
    | none => cases config.get? symbol <;> rfl

/-- Of three declarations for two operators the last one is reported, and the first ones count
before a configuration. -/
theorem repeated_declaration_is_layered :
    ∃ (module : Module) (config other : Registry),
      Module.parse "infixl 6 (|.)\ninfixr 0 |=\ninfix 4 |.\n" = .ok module ∧
      config = ⟨[("|.", ⟨.right, 1⟩), ("+", ⟨.none, 3⟩)]⟩ ∧ config.Distinct ∧
      other = ⟨[("<<", ⟨.left, 2⟩)]⟩ ∧ other.Distinct ∧
      (Registry.builtin.merge config).merge other = Registry.builtin.merge (config.merge other) ∧
      module.declaredFixities.registry = ⟨[("|.", ⟨.left, 6⟩), ("|=", ⟨.right, 0⟩)]⟩ ∧
      module.declaredFixities.errors = [.duplicate "|." ⟨⟨26, 3, 1⟩, ⟨36, 3, 11⟩⟩] ∧
      (∀ entry ∈ module.declaredFixities.registry.entries, 0 ≤ entry.2.precedence ∧
      entry.2.precedence ≤ 9) ∧
      Registry.fixity ((Registry.builtin.merge config).merge module.declaredFixities.registry) "+" =
      ((⟨fixityEntries module.body⟩ : Registry).get? "+").getD
      ((config.get? "+").getD ((Registry.builtin.get? "+").getD ⟨.left, 9⟩)) := by
  let source : Text := "infixl 6 (|.)\ninfixr 0 |=\ninfix 4 |.\n"
  let config : Registry := ⟨[("|.", ⟨.right, 1⟩), ("+", ⟨.none, 3⟩)]⟩
  let other : Registry := ⟨[("<<", ⟨.left, 2⟩)]⟩
  have evaluates : (Module.parse source).toOption.map (fun module =>
      (module.declaredFixities.registry, module.declaredFixities.errors)) =
        some (⟨[("|.", ⟨.left, 6⟩), ("|=", ⟨.right, 0⟩)]⟩,
        [.duplicate "|." ⟨⟨26, 3, 1⟩, ⟨36, 3, 11⟩⟩]) := by decide +kernel
  have distinctConfig : config.Distinct := by decide +kernel
  have distinctOther : other.Distinct := by decide +kernel
  obtain ⟨module, read, declared⟩ := ok_of_toOption_map evaluates
  obtain ⟨registry, errors⟩ := Prod.mk.inj declared
  obtain ⟨merges, -, precedences, counts⟩ := registries_are_layered
  obtain ⟨associative, -⟩ :=
    merges Registry.builtin config other Registry.builtin_distinct distinctConfig distinctOther
  exact ⟨module, config, other, read, rfl, distinctConfig, rfl, distinctOther, associative,
    registry, errors, precedences source module read, counts config module "+" distinctConfig⟩

end Marginalia
