import Mathlib.Data.List.Forall2
import Marginalia.Fixity.Tree
import Marginalia.Proofs.Tree.Occurrence

/-!
# Grouping every chain of a module

Grouping the chains of a module misses none: the chains that are grouped are those that occur
anywhere in its definitions, each once and in document order. Either all can be grouped, or the
first one that cannot be is what is reported.
-/

namespace Marginalia

/-! ## Up to the first failure -/

section FirstFailure

variable {α β ε : Type}

/-- A list is changed entry by entry if every entry can be. -/
theorem mapM_eq_ok_iff {f : α → Except ε β} {entries : List α} {values : List β} :
    entries.mapM f = .ok values ↔
    List.Forall₂ (fun entry value => f entry = .ok value) entries values := by
  induction entries generalizing values with
  | nil => cases values <;> simp [pure, Except.pure]
  | cons entry rest ih =>
    rw [List.mapM_cons]
    cases first : f entry with
    | error error => cases values <;> simp [bind, Except.bind, first]
    | ok value =>
      cases others : rest.mapM f with
      | error error => cases values <;> simp [bind, Except.bind, ← ih, others, first]
      | ok others => cases values <;> simp_all [bind, Except.bind, pure, Except.pure, ← ih]

/-- Otherwise the failure is that of the first entry that cannot be changed. -/
theorem mapM_eq_error_iff {f : α → Except ε β} {entries : List α} {error : ε} :
    entries.mapM f = .error error ↔ ∃ before entry after, entries = before ++ entry :: after ∧
      (∀ earlier ∈ before, ∃ value, f earlier = .ok value) ∧ f entry = .error error := by
  induction entries with
  | nil => simp [pure, Except.pure]
  | cons entry rest ih =>
    rw [List.mapM_cons]
    cases first : f entry with
    | error other =>
      simp only [bind, Except.bind, Except.error.injEq]
      constructor
      · rintro rfl
        exact ⟨[], entry, rest, rfl, List.forall_mem_nil _, first⟩
      · rintro ⟨before, failing, after, split, earlier, fails⟩
        cases before with
        | nil =>
          obtain ⟨rfl, -⟩ := List.cons.inj split
          rw [first] at fails
          exact Except.error.inj fails
        | cons head before =>
          obtain ⟨rfl, -⟩ := List.cons.inj split
          obtain ⟨value, found⟩ := earlier entry (.head _)
          rw [first] at found
          cases found
    | ok value =>
      have onward : (do let others ← rest.mapM f; pure (value :: others)) = Except.error error ↔
          rest.mapM f = .error error := by
        cases rest.mapM f <;> simp [bind, Except.bind, pure, Except.pure]
      refine onward.trans (ih.trans ⟨?_, ?_⟩)
      · rintro ⟨before, failing, after, rfl, earlier, fails⟩
        exact ⟨entry :: before, failing, after, rfl,
          List.forall_mem_cons.mpr ⟨⟨value, first⟩, earlier⟩, fails⟩
      · rintro ⟨before, failing, after, split, earlier, fails⟩
        cases before with
        | nil =>
          obtain ⟨rfl, -⟩ := List.cons.inj split
          rw [first] at fails
          cases fails
        | cons head before =>
          obtain ⟨rfl, rfl⟩ := List.cons.inj split
          exact ⟨before, failing, after, rfl, (List.forall_mem_cons.mp earlier).2, fails⟩

end FirstFailure

/-! ## Chains and their places -/

/-- A chain of operators and where it stands. -/
structure PlacedChain where
  /-- The way down to the chain. -/
  place : Place
  /-- The chain as an expression. -/
  expression : Expression
  /-- The first operand. -/
  left : Expression
  /-- The operators, each with the operand on its right. -/
  clauses : List (Clause Reference Expression)

namespace PlacedChain

/-- The chain that an expression at a place is, if it is one. -/
def of? (found : Place × Expression) : Option PlacedChain :=
  match found.2.node with
  | .chain left clauses _ => some ⟨found.1, found.2, left, clauses⟩
  | _ => none

/-- The chain stands in the module. -/
def IsIn (chain : PlacedChain) (module : Module) : Prop :=
  module.Occurs chain.place chain.expression ∧
    ∃ layout, chain.expression.node = .chain chain.left chain.clauses layout

/-- An expression is a chain where its node is one. -/
theorem of?_eq_some {found : Place × Expression} {chain : PlacedChain} :
    of? found = some chain ↔ found = (chain.place, chain.expression) ∧
      ∃ layout, chain.expression.node = .chain chain.left chain.clauses layout := by
  obtain ⟨place, expression⟩ := found
  constructor
  · intro isChain
    unfold of? at isChain
    split at isChain
    · rename_i left clauses layout same
      obtain rfl := Option.some.inj isChain
      exact ⟨rfl, layout, same⟩
    · cases isChain
  · rintro ⟨same, layout, node⟩
    obtain ⟨rfl, rfl⟩ := Prod.mk.inj same
    simp only [of?, node]

/-- The grouping of a chain. -/
def grouping (registry : Registry) (chain : PlacedChain) : Except FixityError OperatorTree :=
  associate registry chain.left chain.clauses

/-- Grouping an expression is grouping the chain that it is. -/
theorem resolveChain?_eq (registry : Registry) (found : Place × Expression) :
    found.2.resolveChain? registry = (of? found).map fun chain =>
      (chain.grouping registry).map (ResolvedChain.mk chain.expression) := by
  unfold Expression.resolveChain? of?
  cases found.2.node <;> rfl

end PlacedChain

/-- The chains of a module in document order. -/
def Module.chains (module : Module) : List PlacedChain :=
  module.occurrences.filterMap PlacedChain.of?

/-- The chains of a module are those that stand in it. -/
theorem Module.mem_chains {module : Module} {chain : PlacedChain} :
    chain ∈ module.chains ↔ chain.IsIn module := by
  rw [chains, List.mem_filterMap]
  constructor
  · rintro ⟨found, member, isChain⟩
    obtain ⟨rfl, node⟩ := PlacedChain.of?_eq_some.mp isChain
    exact ⟨mem_occurrences.mp member, node⟩
  · rintro ⟨occurs, node⟩
    exact ⟨_, mem_occurrences.mpr occurs, PlacedChain.of?_eq_some.mpr ⟨rfl, node⟩⟩

/-- The chains of a module are in document order. -/
theorem Module.pairwise_chains (module : Module) :
    module.chains.Pairwise fun first second => first.place.Before second.place := by
  refine List.pairwise_filterMap.mpr
    (module.pairwise_occurrences.imp fun earlier first isFirst second isSecond => ?_)
  obtain ⟨rfl, -⟩ := PlacedChain.of?_eq_some.mp isFirst
  obtain ⟨rfl, -⟩ := PlacedChain.of?_eq_some.mp isSecond
  exact earlier

/-- Grouping the chains of a module is grouping them one after another. -/
theorem Module.resolve_eq (module : Module) (registry : Registry) :
    module.resolve registry = module.chains.mapM fun chain =>
      (chain.grouping registry).map (ResolvedChain.mk chain.expression) := by
  rw [resolve, resolveChains, ← module.map_occurrences, List.filterMap_map, chains]
  have each :
    (Expression.resolveChain? registry ∘ fun found : Place × Expression => found.2) = fun found =>
      (PlacedChain.of? found).map fun chain =>
        (chain.grouping registry).map (ResolvedChain.mk chain.expression) :=
    funext (PlacedChain.resolveChain?_eq registry)
  rw [each, ← List.map_filterMap, List.mapM_map]
  rfl

/-- The fixity pass misses no chain. It goes through the chains that stand anywhere in the
definitions of the module, each once and in document order; it gives the grouping of each, or the
error of the first that cannot be grouped. The precedences of the registry are any whole numbers of
the format of 64 bits, and each grouping is what `associate` makes of them. -/
theorem resolve_considers_every_chain (module : Module) (registry : Registry) :
    ∃ chains : List PlacedChain,
      (∀ chain, chain ∈ chains ↔ chain.IsIn module) ∧
      chains.Pairwise (fun first second => first.place.Before second.place) ∧
      (∀ resolved, module.resolve registry = .ok resolved ↔
        List.Forall₂ (fun chain found => found.expression = chain.expression ∧
          associate registry chain.left chain.clauses = .ok found.tree) chains resolved) ∧
      (∀ error, module.resolve registry = .error error ↔
        ∃ before first after, chains = before ++ first :: after ∧
          (∀ chain ∈ before, ∃ tree, associate registry chain.left chain.clauses = .ok tree) ∧
          associate registry first.left first.clauses = .error error) := by
  refine ⟨module.chains, fun _ => Module.mem_chains, module.pairwise_chains, fun resolved => ?_,
    fun error => ?_⟩
  · rw [module.resolve_eq, mapM_eq_ok_iff]
    have each : ∀ (chain : PlacedChain) (found : ResolvedChain),
          (chain.grouping registry).map (ResolvedChain.mk chain.expression) = .ok found ↔
          found.expression = chain.expression ∧
          associate registry chain.left chain.clauses = .ok found.tree := by
      rintro chain ⟨expression, tree⟩
      rw [PlacedChain.grouping]
      cases associate registry chain.left chain.clauses <;> simp [Except.map, eq_comm]
    simp only [each]
  · rw [module.resolve_eq, mapM_eq_error_iff]
    have groups : ∀ chain : PlacedChain, (∃ found,
          (chain.grouping registry).map (ResolvedChain.mk chain.expression) = Except.ok found) ↔
          ∃ tree, associate registry chain.left chain.clauses = .ok tree := by
      intro chain
      rw [PlacedChain.grouping]
      cases associate registry chain.left chain.clauses <;> simp [Except.map]
    have fails : ∀ chain : PlacedChain,
        (chain.grouping registry).map (ResolvedChain.mk chain.expression) = Except.error error ↔
          associate registry chain.left chain.clauses = .error error := by
      intro chain
      rw [PlacedChain.grouping]
      cases associate registry chain.left chain.clauses <;> simp [Except.map]
    simp only [groups, fails]

end Marginalia
