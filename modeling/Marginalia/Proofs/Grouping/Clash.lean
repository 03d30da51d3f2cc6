import Marginalia.Proofs.Grouping
import Mathlib.Data.List.Find

/-!
# Clashes between operators

Two operators of a chain clash if they have one precedence, no operator of theirs or a lower one
stands between them, and they do not group to the same side. Main statement: a chain cannot be
grouped exactly if some of its operators clash, and what is reported is the clash that ends first.

An incoming operator is compared with one waiting operation only, the last one that binds no
tighter. The invariant says that this is also the last one among all operators that were read.
-/

namespace Marginalia

/-! ## Clashes -/

/-- Two fixities of one precedence cannot be grouped: one groups to no side, or they group to
different sides. -/
def Fixity.Opposes (first second : Fixity) : Prop :=
  first.associativity = .none ∨ second.associativity = .none ∨
    first.associativity ≠ second.associativity

/-- The operators at two places of a chain clash. -/
structure Clash (registry : Registry) (operators : List (Located Reference)) (i j : Nat)
    (first second : Located Reference) : Prop where
  /-- One operator stands at the first place. -/
  atFirst : operators[i]? = some first
  /-- The other one stands at the second place. -/
  atSecond : operators[j]? = some second
  /-- The first place comes first. -/
  order : i < j
  /-- Both operators have one precedence. -/
  level : (registry.fixityOf first).precedence = (registry.fixityOf second).precedence
  /-- All operators between them have a higher one. -/
  between : ∀ k, i < k → k < j → ∀ operator ∈ operators[k]?,
    (registry.fixityOf first).precedence < (registry.fixityOf operator).precedence
  /-- They do not group to the same side. -/
  opposes : (registry.fixityOf first).Opposes (registry.fixityOf second)

/-- What is reported about two operators that clash. -/
structure ReportsClash (registry : Registry) (first second : Located Reference)
    (error : FixityError) : Prop where
  /-- The report is about the place of the second operator. -/
  span : error.span = second.span
  /-- Where one of them groups to no side, they cannot be chained. -/
  chained : (registry.fixityOf first).associativity = .none ∨
    (registry.fixityOf second).associativity = .none →
    error.message = "Cannot chain '" ++ first.value.symbol ++ "' and '" ++ second.value.symbol ++
      "': non-associative operators at precedence " ++ (registry.fixityOf second).precedence.text ++
      " need parentheses"
  /-- Otherwise they cannot be mixed. -/
  mixed : ¬ ((registry.fixityOf first).associativity = .none ∨
      (registry.fixityOf second).associativity = .none) → error.message = "Cannot mix " ++
      (registry.fixityOf first).associativity.name ++ "-associative '" ++ first.value.symbol ++
      "' and " ++ (registry.fixityOf second).associativity.name ++ "-associative '" ++
      second.value.symbol ++ "' at precedence " ++ (registry.fixityOf second).precedence.text

variable {registry : Registry} {operators : List (Located Reference)} {i i' j : Nat}
  {first first' second : Located Reference}

/-- For the second place of a clash there is only one first place. -/
theorem Clash.unique (clash : Clash registry operators i j first second)
    (other : Clash registry operators i' j first' second) : i = i' := by
  have level := clash.level.trans other.level.symm
  rcases Nat.lt_trichotomy i i' with before | same | behind
  · have tighter := clash.between i' before other.order first' other.atFirst
    order
  · exact same
  · have tighter := other.between i behind clash.order first clash.atFirst
    order

/-! ## The last operator that binds no tighter -/

/-- The operator binds no tighter than a precedence. -/
def bindsUpTo (registry : Registry) (level : Precedence) (operator : Located Reference) : Bool :=
  (registry.fixityOf operator).precedence ≤ level

/-- The last operator before a place that binds no tighter than a precedence: all behind it do. -/
theorem exists_of_find?_reverse {level : Precedence}
    (found : (operators.take j).reverse.find? (bindsUpTo registry level) = some first) :
    (registry.fixityOf first).precedence ≤ level ∧ ∃ i < j, operators[i]? = some first ∧
      ∀ k, i < k → k < j → ∀ operator ∈ operators[k]?,
      level < (registry.fixityOf operator).precedence := by
  obtain ⟨binds, behind, before, split, tighter⟩ := List.find?_eq_some_iff_append.mp found
  have front : operators.take j = before.reverse ++ first :: behind.reverse := by
    rw [← List.reverse_reverse (operators.take j), split]
    simp
  have inside : before.length < j := by
    have count := congrArg List.length front
    simp only [List.length_take, List.length_append, List.length_reverse, List.length_cons] at count
    omega
  have bound : (registry.fixityOf first).precedence ≤ level := by simpa [bindsUpTo] using binds
  refine ⟨bound, before.length, inside, ?_, fun k above below operator member => ?_⟩
  · rw [← List.getElem?_take_of_lt inside, front, List.getElem?_append_right (by simp)]
    simp
  · rw [← List.getElem?_take_of_lt below, front, List.getElem?_append_right (by simp; omega),
      List.length_reverse, show k - before.length = (k - before.length - 1) + 1 by omega,
      List.getElem?_cons_succ] at member
    have inBehind : operator ∈ behind := List.mem_reverse.mp (List.mem_of_getElem? member)
    simpa [bindsUpTo] using tighter operator inBehind

/-- Where two operators clash, the first one is the last before the second one that binds no
tighter. -/
theorem Clash.find?_reverse (clash : Clash registry operators i j first second) :
    (operators.take j).reverse.find? (bindsUpTo registry (registry.fixityOf second).precedence) =
      some first := by
  have member : first ∈ (operators.take j).reverse := by
    refine List.mem_reverse.mpr (List.mem_of_getElem? (i := i) ?_)
    rw [List.getElem?_take_of_lt clash.order, clash.atFirst]
  have some : ((operators.take j).reverse.find?
        (bindsUpTo registry (registry.fixityOf second).precedence)).isSome := by
    refine List.find?_isSome.mpr ⟨first, member, ?_⟩
    simp [bindsUpTo, clash.level]
  obtain ⟨last, found⟩ := Option.isSome_iff_exists.mp some
  obtain ⟨binds, i', before, atLast, tighter⟩ := exists_of_find?_reverse found
  have level := clash.level
  rcases Nat.lt_trichotomy i i' with earlier | rfl | later
  · have above := clash.between i' earlier before last atLast
    order
  · rw [found, ← atLast, clash.atFirst]
  · have above := tighter i later clash.order first clash.atFirst
    order

/-! ## Comparing an incoming operator -/

variable {operator : Located Reference} {fixity : Fixity} {pending outer : List PendingOperation}
  {left right : OperatorTree} {error : FixityError}

/-- An incoming operator that clashes does so with the last waiting operation that binds no
tighter. -/
theorem rival_of_settle_error (fails : settle operator fixity pending right = .error error) :
    ∃ rival, pending.find? (·.fixity.precedence ≤ fixity.precedence) = some rival ∧
      rival.fixity.precedence = fixity.precedence ∧
      rival.conflict? operator fixity = some error := by
  induction pending generalizing right with
  | nil => cases fails
  | cons top outer ih =>
    rw [settle] at fails
    by_cases tighter : fixity.precedence < top.fixity.precedence
    · rw [if_pos tighter] at fails
      rw [List.find?_cons_of_neg (by simpa using tighter)]
      exact ih fails
    · rw [if_neg tighter] at fails
      refine ⟨top, List.find?_cons_of_pos (by simpa using tighter), ?_⟩
      by_cases looser : top.fixity.precedence < fixity.precedence
      · rw [if_pos looser] at fails
        cases fails
      · rw [if_neg looser] at fails
        cases conflict : top.conflict? operator fixity with
        | some other =>
          rw [conflict] at fails
          exact ⟨by order, congrArg some (Except.error.inj fails)⟩
        | none =>
          rw [conflict] at fails
          dsimp only at fails
          split at fails <;> cases fails

/-- An incoming operator that does not clash completes operations that bind no less tightly, and is
in no conflict with the last one that binds no tighter. -/
theorem settled_of_settle_ok (settles : settle operator fixity pending right = .ok (outer, left)) :
    (∃ settled, pending = settled ++ outer ∧
      ∀ waiting ∈ settled, fixity.precedence ≤ waiting.fixity.precedence) ∧
    ∀ rival ∈ pending.find? (·.fixity.precedence ≤ fixity.precedence),
      rival.fixity.precedence = fixity.precedence → rival.conflict? operator fixity = none := by
  induction pending generalizing right with
  | nil =>
    obtain ⟨rfl, -⟩ := Prod.mk.inj (Except.ok.inj settles)
    exact ⟨⟨[], rfl, List.forall_mem_nil _⟩, nofun⟩
  | cons top inner ih =>
    rw [settle] at settles
    by_cases tighter : fixity.precedence < top.fixity.precedence
    · rw [if_pos tighter] at settles
      obtain ⟨⟨settled, rfl, bind⟩, compatible⟩ := ih settles
      rw [List.find?_cons_of_neg (by simpa using tighter)]
      exact ⟨⟨top :: settled, rfl, List.forall_mem_cons.mpr ⟨Int.le_of_lt tighter, bind⟩⟩,
        compatible⟩
    · rw [if_neg tighter] at settles
      rw [List.find?_cons_of_pos (by simpa using tighter)]
      by_cases looser : top.fixity.precedence < fixity.precedence
      · rw [if_pos looser] at settles
        obtain ⟨rfl, -⟩ := Prod.mk.inj (Except.ok.inj settles)
        refine ⟨⟨[], rfl, List.forall_mem_nil _⟩, fun rival isTop level => ?_⟩
        obtain rfl := Option.some.inj isTop
        order
      · rw [if_neg looser] at settles
        cases conflict : top.conflict? operator fixity with
        | some other =>
          rw [conflict] at settles
          cases settles
        | none =>
          rw [conflict] at settles
          dsimp only at settles
          refine ⟨?_, fun rival isTop _ => Option.some.inj isTop ▸ conflict⟩
          split at settles
          · obtain ⟨rfl, -⟩ := Prod.mk.inj (Except.ok.inj settles)
            exact ⟨[], rfl, List.forall_mem_nil _⟩
          · obtain ⟨rfl, -⟩ := Prod.mk.inj (Except.ok.inj settles)
            exact ⟨[top], rfl, List.forall_mem_singleton.mpr (by order)⟩

/-- A conflict is reported where two fixities of one precedence oppose each other, in the words for
it. -/
theorem PendingOperation.conflict?_eq {waiting : PendingOperation}
    (same : waiting.fixity = registry.fixityOf waiting.operator)
    (level : waiting.fixity.precedence = (registry.fixityOf operator).precedence) :
    (∀ error, waiting.conflict? operator (registry.fixityOf operator) = some error →
      (registry.fixityOf waiting.operator).Opposes (registry.fixityOf operator) ∧
        ReportsClash registry waiting.operator operator error) ∧
    (waiting.conflict? operator (registry.fixityOf operator) = none →
      ¬(registry.fixityOf waiting.operator).Opposes (registry.fixityOf operator)) := by
  rw [PendingOperation.conflict?, level, same]
  by_cases loose : (registry.fixityOf waiting.operator).associativity = .none ∨
      (registry.fixityOf operator).associativity = .none
  · rw [if_pos loose]
    refine ⟨fun error reported => ?_, fun accepted => absurd accepted (Option.some_ne_none _)⟩
    obtain rfl := Option.some.inj reported
    exact ⟨loose.imp id .inl, rfl, fun _ => rfl, fun tight => absurd loose tight⟩
  rw [if_neg loose]
  by_cases differ : (registry.fixityOf waiting.operator).associativity ≠
      (registry.fixityOf operator).associativity
  · rw [if_pos differ]
    refine ⟨fun error reported => ?_, fun accepted => absurd accepted (Option.some_ne_none _)⟩
    obtain rfl := Option.some.inj reported
    exact ⟨.inr (.inr differ), rfl, fun either => absurd either loose, fun _ => rfl⟩
  · rw [if_neg differ]
    refine ⟨fun error reported => absurd reported (Option.some_ne_none error).symm,
      fun _ opposes => ?_⟩
    rcases opposes with first | second | other
    · exact loose (.inl first)
    · exact loose (.inr second)
    · exact differ other

/-! ## The search -/

/-- The waiting operations remember of all operators that were read, the latest first, those that
later ones are compared with. -/
structure Recalls (registry : Registry) (recent : List (Located Reference))
    (pending : List PendingOperation) : Prop where
  /-- Waiting operations have the fixities of their operators. -/
  fixity : ∀ waiting ∈ pending, waiting.fixity = registry.fixityOf waiting.operator
  /-- The last operator that binds no tighter than a precedence still waits. -/
  last : ∀ level, recent.find? (bindsUpTo registry level) =
    (pending.find? (·.fixity.precedence ≤ level)).map (·.operator)

/-- With an operator that comes in, the waiting operations remember it too. -/
theorem Recalls.push {recent : List (Located Reference)} (recalls : Recalls registry recent pending)
    (settles : settle operator (registry.fixityOf operator) pending right = .ok (outer, left)) :
    Recalls registry (operator :: recent)
      (⟨left, operator, registry.fixityOf operator⟩ :: outer) := by
  obtain ⟨⟨settled, rfl, bind⟩, -⟩ := settled_of_settle_ok settles
  refine ⟨List.forall_mem_cons.mpr ⟨rfl, fun waiting member => ?_⟩, fun level => ?_⟩
  · exact recalls.fixity waiting (List.mem_append_right _ member)
  · by_cases binds : (registry.fixityOf operator).precedence ≤ level
    · rw [List.find?_cons_of_pos (by simpa [bindsUpTo] using binds),
        List.find?_cons_of_pos (by simpa using binds)]
      rfl
    · rw [List.find?_cons_of_neg (by simpa [bindsUpTo] using binds),
        List.find?_cons_of_neg (by simpa using binds), recalls.last, List.find?_append]
      have none : settled.find? (·.fixity.precedence ≤ level) = none := by
        refine List.find?_eq_none.mpr fun waiting member => ?_
        have above := bind waiting member
        simp only [decide_eq_true_eq]
        order
      rw [none, Option.none_or]

variable {clauses seen rest : List (Clause Reference Expression)}

/-- The operators of a chain. -/
def chainOperators (clauses : List (Clause Reference Expression)) : List (Located Reference) :=
  clauses.map (·.operator)

/-- The operators before the next one are those that were read. -/
theorem take_chainOperators (seen : List (Clause Reference Expression))
    (clause : Clause Reference Expression) (rest : List (Clause Reference Expression)) :
    (chainOperators (seen ++ clause :: rest)).take seen.length = chainOperators seen ∧
    (chainOperators (seen ++ clause :: rest))[seen.length]? = some clause.operator := by
  constructor
  · rw [chainOperators, List.map_append, List.take_left' (by simp)]
    rfl
  · simp [chainOperators]

/-- Where the next operator clashes, it is in conflict with the operation it is compared with. -/
theorem Recalls.not_clash {clause : Clause Reference Expression}
    (recalls : Recalls registry (chainOperators seen).reverse pending) (settles : settle
      clause.operator (registry.fixityOf clause.operator) pending right = .ok (outer, left)) :
    ¬ Clash registry (chainOperators (seen ++ clause :: rest)) i seen.length
      first clause.operator := by
  intro clash
  have found := clash.find?_reverse
  rw [(take_chainOperators seen clause rest).1, recalls.last] at found
  obtain ⟨rival, isRival, rfl⟩ := Option.map_eq_some_iff.mp found
  have same := recalls.fixity rival (List.mem_of_find?_eq_some isRival)
  have level := clash.level
  rw [← same] at level
  have compatible := (settled_of_settle_ok settles).2 rival isRival level
  exact (PendingOperation.conflict?_eq same level).2 compatible clash.opposes

/-- Where the next operator cannot be settled, it clashes with one before it, and the clash is
reported. -/
theorem Recalls.clash {clause : Clause Reference Expression}
    (rest : List (Clause Reference Expression))
    (recalls : Recalls registry (chainOperators seen).reverse pending) (fails : settle
      clause.operator (registry.fixityOf clause.operator) pending right = .error error) :
    ∃ i first, Clash registry (chainOperators (seen ++ clause :: rest)) i seen.length
      first clause.operator ∧ ReportsClash registry first clause.operator error := by
  obtain ⟨rival, isRival, level, conflict⟩ := rival_of_settle_error fails
  have same := recalls.fixity rival (List.mem_of_find?_eq_some isRival)
  obtain ⟨opposes, reports⟩ := (PendingOperation.conflict?_eq same level).1 error conflict
  obtain ⟨front, next⟩ := take_chainOperators seen clause rest
  have found : ((chainOperators (seen ++ clause :: rest)).take seen.length).reverse.find? (bindsUpTo
        registry (registry.fixityOf clause.operator).precedence) = some rival.operator := by
    rw [front, recalls.last, isRival]
    rfl
  obtain ⟨-, i, order, atFirst, between⟩ := exists_of_find?_reverse found
  rw [same] at level
  refine ⟨i, rival.operator,
    ⟨atFirst, next, order, level, fun k above below operator member => ?_, opposes⟩, reports⟩
  rw [level]
  exact between k above below operator member

/-- The search stops at the first operator that clashes with one before it, and goes on to the end
if none does. -/
theorem findGroupingFrom_clashes {last : Expression}
    (recalls : Recalls registry (chainOperators seen).reverse pending)
    (earlier : ∀ i j first second,
      Clash registry (chainOperators (seen ++ rest)) i j first second → seen.length ≤ j) :
    (∀ tree, findGroupingFrom registry pending (.operand last) rest = .ok tree →
      ∀ i j first second, ¬ Clash registry (chainOperators (seen ++ rest)) i j first second) ∧
    ∀ error, findGroupingFrom registry pending (.operand last) rest = .error error →
      ∃ i j first second, Clash registry (chainOperators (seen ++ rest)) i j first second ∧
      (∀ i' j' first' second', Clash registry (chainOperators (seen ++ rest)) i' j' first' second' →
      j ≤ j') ∧ ReportsClash registry first second error := by
  induction rest generalizing seen pending last with
  | nil =>
    refine ⟨fun tree _ i j first second clash => ?_, fun error fails => ?_⟩
    · have late := earlier i j first second clash
      obtain ⟨inside, -⟩ := List.getElem?_eq_some_iff.mp clash.atSecond
      rw [List.append_nil, chainOperators, List.length_map] at inside
      omega
    · cases fails
  | cons clause rest ih =>
    rw [findGroupingFrom]
    cases settled : settle clause.operator (registry.fixityOf clause.operator) pending
      (.operand last) with
    | error error =>
      refine ⟨fun tree grouped => ?_, fun reported fails => ?_⟩
      · cases grouped
      · obtain rfl := Except.error.inj fails
        obtain ⟨i, first, clash, reports⟩ := recalls.clash rest settled
        exact ⟨i, seen.length, first, clause.operator, clash, earlier, reports⟩
    | ok result =>
      obtain ⟨outer, left⟩ := result
      have pushed := recalls.push settled
      have joined : seen ++ clause :: rest = (seen ++ [clause]) ++ rest := by simp
      have recent : clause.operator :: (chainOperators seen).reverse =
            (chainOperators (seen ++ [clause])).reverse := by
        simp [chainOperators]
      rw [recent] at pushed
      have later :
          ∀ i j first second, Clash registry (chainOperators (seen ++ clause :: rest)) i j
            first second → (seen ++ [clause]).length ≤ j := by
        intro i j first second clash
        have late := earlier i j first second clash
        rcases Nat.eq_or_lt_of_le late with rfl | behind
        · obtain rfl := Option.some.inj
            ((take_chainOperators seen clause rest).2.symm.trans clash.atSecond)
          exact absurd clash (recalls.not_clash settled)
        · rw [List.length_append]
          exact behind
      rw [joined] at later ⊢
      exact ih pushed later

/-! ## Main statement -/

/-- The two forms of a report are told apart by their first words. -/
theorem ReportsClash.chained_iff (reports : ReportsClash registry first second error) :
    Text.ofString "Cannot chain" <+: error.message ↔
    (registry.fixityOf first).associativity = .none ∨
    (registry.fixityOf second).associativity = .none := by
  constructor
  · intro chained
    by_contra tight
    rw [reports.mixed tight] at chained
    have words : Text.ofString "Cannot m" <+: Text.ofString "Cannot mix " ++
          (registry.fixityOf first).associativity.name ++ "-associative '" ++ first.value.symbol ++
          "' and " ++ (registry.fixityOf second).associativity.name ++ "-associative '" ++
          second.value.symbol ++ "' at precedence " ++
          (registry.fixityOf second).precedence.text := by
      simp only [List.append_assoc]
      exact List.IsPrefix.trans (by decide) (List.prefix_append _ _)
    have shared := List.prefix_of_prefix_length_le words chained (by decide)
    exact absurd shared (by decide)
  · intro loose
    rw [reports.chained loose]
    simp only [List.append_assoc]
    exact List.IsPrefix.trans (by decide) (List.prefix_append _ _)

/-- A chain cannot be grouped exactly if two of its operators clash, as long as adding one to the
precedence of each of its operators gives a greater precedence. Then the clash whose second operator
comes first is reported, at the place of that operator: it has only one first operator, both are
named, and the report says that they cannot be chained exactly if one of them groups to no side. -/
theorem associate_reports_first_clash (registry : Registry) (left : Expression)
    (clauses : List (Clause Reference Expression)) (raises : registry.Raises clauses) :
    ((∃ error, associate registry left clauses = .error error) ↔
      ∃ i j first second, Clash registry (chainOperators clauses) i j first second) ∧
    ∀ error, associate registry left clauses = .error error →
      ∃ i j first second, Clash registry (chainOperators clauses) i j first second ∧
        (∀ i' j' first' second',
          Clash registry (chainOperators clauses) i' j' first' second' → j ≤ j') ∧
        (∀ i' first', Clash registry (chainOperators clauses) i' j first' second → i' = i) ∧
        ReportsClash registry first second error ∧
        (Text.ofString "Cannot chain" <+: error.message ↔
          (registry.fixityOf first).associativity = .none ∨
            (registry.fixityOf second).associativity = .none) := by
  have nothing : Recalls registry (chainOperators []).reverse [] :=
    ⟨List.forall_mem_nil _, fun _ => rfl⟩
  have search : (∀ tree, findGrouping registry left clauses = .ok tree → _) ∧
      ∀ error, findGrouping registry left clauses = .error error → _ :=
    findGroupingFrom_clashes nothing fun _ _ _ _ _ => Nat.zero_le _
  rw [← associate_eq_findGrouping raises] at search
  obtain ⟨succeeds, reports⟩ := search
  refine ⟨⟨?_, ?_⟩, fun error fails => ?_⟩
  · rintro ⟨error, fails⟩
    obtain ⟨i, j, first, second, clash, -⟩ := reports error fails
    exact ⟨i, j, first, second, clash⟩
  · rintro ⟨i, j, first, second, clash⟩
    cases result : associate registry left clauses with
    | error error => exact ⟨error, rfl⟩
    | ok tree => exact absurd clash (succeeds tree result i j first second)
  · obtain ⟨i, j, first, second, clash, least, reported⟩ := reports error fails
    exact ⟨i, j, first, second, clash, least, fun i' first' other => other.unique clash, reported,
      reported.chained_iff⟩

/-- Two comparisons with a product and a sum between them clash, and are reported before the two
pipes behind them. -/
theorem comparisons_clash_first :
    Registry.builtin.Raises (unitChain ["==", "*", "+", "<", "|>", "<|"]) ∧
      associate .builtin ⟨default, .unit []⟩ (unitChain ["==", "*", "+", "<", "|>", "<|"]) =
        .error (.nonAssociative "==" "<" 4 default) ∧
      ∃ i j first second,
        Clash .builtin (chainOperators (unitChain ["==", "*", "+", "<", "|>", "<|"])) i j first
          second ∧
        (∀ i' j' first' second',
          Clash .builtin (chainOperators (unitChain ["==", "*", "+", "<", "|>", "<|"])) i' j'
            first' second' → j ≤ j') ∧
        (∀ i' first',
          Clash .builtin (chainOperators (unitChain ["==", "*", "+", "<", "|>", "<|"])) i' j
            first' second → i' = i) ∧
        ReportsClash .builtin first second (.nonAssociative "==" "<" 4 default) ∧
        (Text.ofString "Cannot chain" <+:
            FixityError.message (.nonAssociative "==" "<" 4 default) ↔
          (Registry.builtin.fixityOf first).associativity = .none ∨
            (Registry.builtin.fixityOf second).associativity = .none) := by
  have raises : Registry.builtin.Raises (unitChain ["==", "*", "+", "<", "|>", "<|"]) := by
    unfold Registry.Raises
    decide +kernel
  have fails : associate .builtin ⟨default, .unit []⟩
      (unitChain ["==", "*", "+", "<", "|>", "<|"]) = .error (.nonAssociative "==" "<" 4 default) :=
    rfl
  exact ⟨raises, fails, (associate_reports_first_clash _ _ _ raises).2 _ fails⟩

/-- With precedences that are too great two operators that group to no side clash and are not
reported. -/
theorem great_clash_is_not_reported :
    (∃ tree, associate (greatRegistry .none) ⟨default, .unit []⟩ (unitChain ["+", "*", "+"]) =
      .ok tree) ∧
    Clash (greatRegistry .none) (chainOperators (unitChain ["+", "*", "+"])) 0 2
      ⟨default, .operator (Text.ofString "+")⟩ ⟨default, .operator (Text.ofString "+")⟩ := by
  refine ⟨⟨_, rfl⟩, rfl, rfl, by decide, rfl, fun k above below operator member => ?_, .inl rfl⟩
  have middle : k = 1 := by omega
  subst middle
  obtain rfl := Option.some.inj member
  decide

end Marginalia
