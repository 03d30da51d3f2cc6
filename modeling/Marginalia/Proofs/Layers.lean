import Marginalia.Proofs.Grouping
import Marginalia.Proofs.Keyed
import Marginalia.Proofs.Resolution

/-!
# Layers of fixities

Which fixity counts where several layers declare one is said without reference to how layers are
merged: that of the last entry for the operator, the layers being written one after the other. Main
statements: the declarations of a module are without fault if they are for different operators, and
then its chains can be grouped if there is a grouping for each of them by the fixities that count.
-/

namespace Marginalia

/-! ## Declarations of a module -/

/-- The operator and the fixity that an entry declares, if it declares one. -/
def TopLevel.fixityEntry? : TopLevel → Option (Text × Fixity)
  | fixity declared =>
    some (declared.operator.value, ⟨declared.associativity, declared.precedence.value⟩)
  | _ => none

/-- The operators and fixities that entries declare, in order. -/
def fixityEntries (entries : List (Located TopLevel)) : List (Text × Fixity) :=
  entries.filterMap fun entry => entry.value.fixityEntry?

namespace DeclaredFixities

variable {declared : DeclaredFixities} {entry : Located TopLevel}
  {entries : List (Located TopLevel)} {symbol : Text} {fixity : Fixity}

/-- Of an entry only the fixity that it declares counts. -/
theorem add_eq (declared : DeclaredFixities) (entry : Located TopLevel) :
    declared.add entry = entry.value.fixityEntry?.elim declared fun declares =>
      if declared.registry.contains declares.1 then
        ⟨declared.registry, declared.errors ++ [.duplicate declares.1 entry.span]⟩
      else ⟨declared.registry.insert declares.1 declares.2, declared.errors⟩ := by
  unfold add
  cases entry.value <;> rfl

/-- An entry that declares no fixity does not matter. -/
theorem add_none (none : entry.value.fixityEntry? = none) : declared.add entry = declared := by
  rw [add_eq, none]
  rfl

/-- A second declaration of an operator is a fault and has no effect. -/
theorem add_known (found : entry.value.fixityEntry? = some (symbol, fixity))
    (known : declared.registry.contains symbol = true) :
    declared.add entry = ⟨declared.registry,
      declared.errors ++ [.duplicate symbol entry.span]⟩ := by
  rw [add_eq, found]
  exact if_pos known

/-- The first declaration of an operator counts. -/
theorem add_new (found : entry.value.fixityEntry? = some (symbol, fixity))
    (new : declared.registry.contains symbol = false) :
    declared.add entry = ⟨⟨declared.registry.entries ++ [(symbol, fixity)]⟩, declared.errors⟩ := by
  rw [add_eq, found, ← Keyed.insert_of_not_contains new]
  exact if_neg (by simp [new])

/-- Faults are never taken back. -/
theorem errors_subset_foldl (entries : List (Located TopLevel)) (declared : DeclaredFixities) :
    declared.errors ⊆ (entries.foldl add declared).errors := by
  induction entries generalizing declared with
  | nil => exact List.Subset.refl _
  | cons entry rest ih =>
    refine List.Subset.trans ?_ (ih (declared.add entry))
    cases found : entry.value.fixityEntry? with
    | none =>
      rw [add_none found]
      exact List.Subset.refl _
    | some declares =>
      cases known : declared.registry.contains declares.1 with
      | true =>
        rw [add_known found known]
        exact List.subset_append_left _ _
      | false =>
        rw [add_new found known]
        exact List.Subset.refl _

/-- Declarations of different operators are all taken. -/
theorem foldl_add
    (distinct : ((declared.registry.entries ++ fixityEntries entries).map Prod.fst).Nodup) :
    entries.foldl add declared = ⟨⟨declared.registry.entries ++ fixityEntries entries⟩,
      declared.errors⟩ := by
  induction entries generalizing declared with
  | nil => simp [fixityEntries]
  | cons entry rest ih =>
    rw [List.foldl_cons]
    cases found : entry.value.fixityEntry? with
    | none =>
      have same : fixityEntries (entry :: rest) = fixityEntries rest := by
        simp [fixityEntries, found]
      rw [same] at distinct ⊢
      rw [add_none found, ih distinct]
    | some entries =>
      obtain ⟨symbol, fixity⟩ := entries
      have split : fixityEntries (entry :: rest) = (symbol, fixity) :: fixityEntries rest := by
        simp [fixityEntries, found]
      rw [split, List.append_cons] at distinct ⊢
      have new : declared.registry.contains symbol = false := by
        rw [Keyed.contains_eq_false_iff]
        rw [List.map_append, List.map_append] at distinct
        have apart := (List.nodup_append.mp (List.nodup_append.mp distinct).1).2.2
        exact fun member => apart symbol member symbol (by simp) rfl
      rw [add_new found new]
      exact ih distinct

/-- Without faults the declarations are those of different operators. -/
theorem distinct_of_errors (known : (declared.registry.entries.map Prod.fst).Nodup)
    (none : (entries.foldl add declared).errors = []) :
    ((declared.registry.entries ++ fixityEntries entries).map Prod.fst).Nodup := by
  induction entries generalizing declared with
  | nil => simpa [fixityEntries] using known
  | cons entry rest ih =>
    rw [List.foldl_cons] at none
    cases found : entry.value.fixityEntry? with
    | none =>
      have same : fixityEntries (entry :: rest) = fixityEntries rest := by
        simp [fixityEntries, found]
      rw [add_none found] at none
      rw [same]
      exact ih known none
    | some entries =>
      obtain ⟨symbol, fixity⟩ := entries
      have split : fixityEntries (entry :: rest) = (symbol, fixity) :: fixityEntries rest := by
        simp [fixityEntries, found]
      rw [split, List.append_cons]
      cases contains : declared.registry.contains symbol with
      | true =>
        rw [add_known found contains] at none
        have fault := errors_subset_foldl rest (⟨declared.registry, declared.errors ++
            [.duplicate symbol entry.span]⟩ : DeclaredFixities) (List.mem_append_right _ (.head _))
        rw [none] at fault
        cases fault
      | false =>
        rw [add_new found contains] at none
        refine ih ?_ none
        rw [List.map_append]
        refine List.nodup_append.mpr ⟨known, by simp, ?_⟩
        rintro other member _ isLast rfl
        obtain rfl := List.mem_singleton.mp isLast
        exact Keyed.contains_eq_false_iff.mp contains member

end DeclaredFixities

/-- A module declares its fixities without fault if they are those of different operators. -/
theorem Module.errors_declaredFixities (module : Module) :
    module.declaredFixities.errors = [] ↔ ((fixityEntries module.body).map Prod.fst).Nodup := by
  constructor
  · exact fun none => DeclaredFixities.distinct_of_errors (by simp [Keyed.empty]) none
  · intro distinct
    rw [declaredFixities, DeclaredFixities.foldl_add (by simpa [Keyed.empty] using distinct)]

/-- The fixities of a module without faults are those that it declares. -/
theorem Module.registry_declaredFixities {module : Module}
    (distinct : ((fixityEntries module.body).map Prod.fst).Nodup) :
    module.declaredFixities.registry = ⟨fixityEntries module.body⟩ := by
  rw [declaredFixities, DeclaredFixities.foldl_add (by simpa [Keyed.empty] using distinct)]
  rfl

/-! ## Which fixity counts -/

/-- The fixities that count in layers written one after the other: for each operator that of its
last entry. -/
def Registry.layered (layers : List (List (Text × Fixity))) : Registry := ⟨layers.flatten.reverse⟩

/-- The operators of the core library are different ones. -/
theorem Registry.builtin_distinct : (Registry.builtin.entries.map Prod.fst).Nodup := by
  decide +kernel

/-- Layers merged one into the other give the fixities that count. -/
theorem Registry.fixity_layered (second third : List (Text × Fixity)) (symbol : Text) :
    fixity ((Registry.builtin.merge ⟨second⟩).merge ⟨third⟩) symbol =
      (layered [Registry.builtin.entries, second, third]).fixity symbol := by
  have last : (layered [Registry.builtin.entries, second, third]).get? symbol =
      Keyed.last? (Registry.builtin.entries ++ (second ++ third)) symbol := by
    simp [layered, Keyed.last?]
  rw [fixity, fixity, last, Keyed.get?_merge, Keyed.get?_merge, Keyed.last?_append,
    Keyed.last?_append, Keyed.last?_eq_get? builtin_distinct, Option.or_assoc]

/-! ## What can be grouped -/

variable {registry other : Registry}

/-- Whether a tree is grouped depends on the fixities that count only. -/
theorem OperatorTree.Grouped.congr (same : ∀ symbol, registry.fixity symbol = other.fixity symbol)
    {tree : OperatorTree} (grouped : tree.Grouped registry) : tree.Grouped other := by
  have sameOf : registry.fixityOf = other.fixityOf :=
    funext fun operator => same operator.value.symbol
  have under {outer : Fixity} {side : Associativity} {tree : OperatorTree}
      (below : tree.Under registry outer side) : tree.Under other outer side := by
    cases tree with
    | operand expression => trivial
    | operation operator left right =>
      rw [Under, ← sameOf]
      exact below
  induction tree with
  | operand expression => trivial
  | operation operator left right ihLeft ihRight =>
    obtain ⟨leftUnder, rightUnder, leftGrouped, rightGrouped⟩ := grouped
    rw [Grouped, ← sameOf]
    exact ⟨under leftUnder, under rightUnder, ihLeft leftGrouped, ihRight rightGrouped⟩

/-- A chain can be grouped if there is a grouping of it. -/
theorem associate_ok_iff {left : Expression} {clauses : List (Clause Reference Expression)}
    (raises : registry.Raises clauses) :
    (∃ tree, associate registry left clauses = .ok tree) ↔
      ∃ tree, IsGrouping registry left clauses tree := by
  constructor
  · rintro ⟨tree, found⟩
    exact ⟨tree, isGrouping_of_associate raises found⟩
  · rintro ⟨tree, grouping⟩
    rw [associate_eq_findGrouping raises]
    exact ⟨tree, findGrouping_of_isGrouping grouping⟩

/-- A list can be changed entry by entry if every entry can be. -/
theorem mapM_ok_iff {α β ε : Type} {f : α → Except ε β} {entries : List α} :
    (∃ values, entries.mapM f = .ok values) ↔ ∀ entry ∈ entries, ∃ value, f entry = .ok value := by
  induction entries with
  | nil => simp [pure, Except.pure]
  | cons entry rest ih =>
    rw [List.mapM_cons, List.forall_mem_cons, ← ih]
    cases f entry with
    | error error => simp [bind, Except.bind]
    | ok value => cases rest.mapM f <;> simp [bind, Except.bind, pure, Except.pure]

/-- The chains of a module can be grouped if there is a grouping for each of them, by the fixities
that count. -/
theorem Module.resolve_ok_iff
    (raisable : ∀ symbol, (registry.fixity symbol).precedence.Raisable)
    (same : ∀ symbol, registry.fixity symbol = other.fixity symbol) (module : Module) :
    (∃ resolved, module.resolve registry = .ok resolved) ↔
      ∀ chain : PlacedChain, chain.IsIn module →
        ∃ tree, IsGrouping other chain.left chain.clauses tree := by
  have each (chain : PlacedChain) :
      (∃ tree, associate registry chain.left chain.clauses = .ok tree) ↔
        ∃ tree, IsGrouping other chain.left chain.clauses tree := by
    rw [associate_ok_iff fun clause _ => raisable clause.operator.value.symbol]
    exact ⟨fun ⟨tree, order, grouped⟩ => ⟨tree, order, grouped.congr same⟩,
      fun ⟨tree, order, grouped⟩ =>
        ⟨tree, order, grouped.congr fun symbol => (same symbol).symm⟩⟩
  have grouping (chain : PlacedChain) :
      (∃ found, (chain.grouping registry).map (ResolvedChain.mk chain.expression) = .ok found) ↔
        ∃ tree, associate registry chain.left chain.clauses = .ok tree := by
    rw [PlacedChain.grouping]
    cases associate registry chain.left chain.clauses <;> simp [Except.map]
  rw [module.resolve_eq, mapM_ok_iff]
  exact ⟨fun all chain isIn => (each chain).mp
      ((grouping chain).mp (all chain (mem_chains.mpr isIn))), fun all chain member =>
      (grouping chain).mpr ((each chain).mpr (all chain (mem_chains.mp member)))⟩

/-! ## Declared precedences -/

/-- A fixity that can be declared: its precedence goes from zero to nine. -/
def Fixity.Declarable (fixity : Fixity) : Prop := 0 ≤ fixity.precedence ∧ fixity.precedence ≤ 9

/-- A precedence that can be declared is made greater by adding one. -/
theorem Fixity.Declarable.raisable {fixity : Fixity} (declarable : fixity.Declarable) :
    fixity.precedence.Raisable := by
  have low : 0 ≤ fixity.precedence.value := declarable.1
  have high : fixity.precedence.value ≤ 9 := declarable.2
  have great : 9 < 2 * Binary64.hiddenBit := by decide
  exact Precedence.lt_plusOne (by omega) (by omega)

/-- Whole numbers from zero to nine can be declared. -/
theorem Fixity.declarable_of_le {n : Nat} (associativity : Associativity) (le : n ≤ maxPrecedence) :
    Fixity.Declarable ⟨associativity, n⟩ := by
  have whole : (n : Precedence).value = n := by
    have great : 9 < 2 * Binary64.hiddenBit := by decide
    have small : n ≤ 9 := le
    exact Precedence.value_ofInt_small (by omega)
  constructor
  · show (0 : Int) ≤ (n : Precedence).value
    omega
  · show (n : Precedence).value ≤ 9
    have small : n ≤ 9 := le
    omega

/-- Where all entries can be declared, so can what counts for any operator. -/
theorem Registry.declarable_fixity (all : ∀ entry ∈ registry.entries, entry.2.Declarable)
    (symbol : Text) : (registry.fixity symbol).Declarable := by
  rw [fixity]
  cases found : registry.get? symbol with
  | none => exact ⟨by decide, by decide⟩
  | some fixity =>
    obtain ⟨entry, member, rfl⟩ := Option.map_eq_some_iff.mp found
    exact all entry (List.mem_of_find?_eq_some member)

end Marginalia
