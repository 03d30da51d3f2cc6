import Marginalia.Proofs.Grouping

/-!
# Grouping by climbing

Grouping a chain is a recursion of two loops, one that takes up operators from a precedence on and
one that takes up what belongs to the right operand of a waiting operation. Here they are a relation
between what a loop starts from and what it ends with. Main statement: for every chain the recursion
ends, and with the tree or the error that `associate` gives, whatever the precedences are.

The operations on the stack of `associate` are those whose climbs have begun and not ended, so each
step of the recursion is a step of `associate`.
-/

namespace Marginalia

/-! ## Climbs -/

/-- The two loops of the recursion, which call each other. -/
inductive Climb where
  /-- Takes up the operators from a precedence on, or all of them. -/
  | above (least : Option Precedence)
  /-- Takes up what belongs to the right operand of a waiting operation. -/
  | under (pending : PendingOperation)

namespace Climb

/-- The loop ends before an operator. -/
def Leaves (registry : Registry) (operator : Located Reference) : Climb → Prop
  | above least => ∃ bound ∈ least, (registry.fixityOf operator).precedence < bound
  | under pending => pending.climbsFrom? operator (registry.fixityOf operator) = .ok none

/-- What a loop ends with: a tree and the clauses that are left, or an error. -/
abbrev Outcome := Except FixityError (OperatorTree × List (Clause Reference Expression))

/-- The loop makes of a tree that it has and the clauses that follow what it ends with. -/
inductive Ends (registry : Registry) :
    Climb → OperatorTree → List (Clause Reference Expression) → Outcome → Prop where
  | finish {loop : Climb} {tree : OperatorTree} : Ends registry loop tree [] (.ok (tree, []))
  | leave {loop : Climb} {tree : OperatorTree} {clause : Clause Reference Expression}
      {rest : List (Clause Reference Expression)} (leaves : loop.Leaves registry clause.operator) :
      Ends registry loop tree (clause :: rest) (.ok (tree, clause :: rest))
  /-- The operator is taken up, its operation is completed, and is the left operand of what
  follows. -/
  | operation {least : Option Precedence} {left right : OperatorTree}
      {clause : Clause Reference Expression}
      {rest behind : List (Clause Reference Expression)} {outcome : Outcome}
      (reached : ∀ bound ∈ least, bound ≤ (registry.fixityOf clause.operator).precedence)
      (operand : Ends registry (under ⟨left, clause.operator, registry.fixityOf clause.operator⟩)
        (.operand clause.expression) rest (.ok (right, behind))) (further : Ends registry
        (above least) (.operation clause.operator left right) behind outcome) :
      Ends registry (above least) left (clause :: rest) outcome
  | noOperation {least : Option Precedence} {left : OperatorTree}
      {clause : Clause Reference Expression}
      {rest : List (Clause Reference Expression)} {error : FixityError}
      (reached : ∀ bound ∈ least, bound ≤ (registry.fixityOf clause.operator).precedence)
      (operand : Ends registry (under ⟨left, clause.operator, registry.fixityOf clause.operator⟩)
        (.operand clause.expression) rest (.error error)) :
      Ends registry (above least) left (clause :: rest) (.error error)
  | conflict {pending : PendingOperation} {right : OperatorTree}
      {clause : Clause Reference Expression}
      {rest : List (Clause Reference Expression)} {error : FixityError}
      (conflict : pending.climbsFrom? clause.operator (registry.fixityOf clause.operator) =
        .error error) : Ends registry (under pending) right (clause :: rest) (.error error)
  /-- The right operand climbs, and may take up more behind the climb. -/
  | climb {pending : PendingOperation} {right higher : OperatorTree}
      {clause : Clause Reference Expression} {rest behind : List (Clause Reference Expression)}
      {least : Precedence} {outcome : Outcome} (climbs : pending.climbsFrom? clause.operator
        (registry.fixityOf clause.operator) = .ok (some least))
      (operand : Ends registry (above (some least)) right (clause :: rest) (.ok (higher, behind)))
      (further : Ends registry (under pending) higher behind outcome) :
      Ends registry (under pending) right (clause :: rest) outcome
  | noClimb {pending : PendingOperation} {right : OperatorTree}
      {clause : Clause Reference Expression} {rest : List (Clause Reference Expression)}
      {least : Precedence} {error : FixityError} (climbs : pending.climbsFrom? clause.operator
        (registry.fixityOf clause.operator) = .ok (some least))
      (operand : Ends registry (above (some least)) right (clause :: rest) (.error error)) :
      Ends registry (under pending) right (clause :: rest) (.error error)

end Climb

variable {registry : Registry} {least start : Option Precedence} {pending : PendingOperation}
  {outer : List ClimbingOperation} {operator : Located Reference} {fixity : Fixity} {loop : Climb}
  {left right tree : OperatorTree} {clause : Clause Reference Expression}
  {clauses rest behind : List (Clause Reference Expression)} {outcome : Climb.Outcome}

/-! ## The stack along the recursion -/

/-- A right operand climbs from no higher than the operator that it takes up first. -/
theorem PendingOperation.le_of_climbsFrom? {least : Precedence}
    (climbs : pending.climbsFrom? operator fixity = .ok (some least)) :
    least ≤ fixity.precedence := by
  cases follows_of_climbsFrom? climbs with
  | tighter above => exact Precedence.plusOne_le above
  | right level => exact le_of_eq level

/-- A climb over waiting operations that comes to the clauses that follow. It takes up the operator
of the first, or ends before it, and then that operator comes to the operations outside. -/
def resumeClimb (registry : Registry) (outer : List ClimbingOperation) (least : Option Precedence)
    (left : OperatorTree) : List (Clause Reference Expression) → Except FixityError OperatorTree
  | [] => associateFrom registry outer left []
  | clause :: rest =>
    let fixity := registry.fixityOf clause.operator
    if least.any (fixity.precedence < ·) then associateFrom registry outer left (clause :: rest)
    else
      associateFrom registry (⟨⟨left, clause.operator, fixity⟩, least⟩ :: outer)
        (.operand clause.expression) rest

/-- A climb takes up an operator that it reaches. -/
theorem resumeClimb_reached
    (reached : ∀ bound ∈ least, bound ≤ (registry.fixityOf clause.operator).precedence) :
    resumeClimb registry outer least left (clause :: rest) =
      associateFrom registry
        (⟨⟨left, clause.operator, registry.fixityOf clause.operator⟩, least⟩ :: outer)
        (.operand clause.expression) rest := by
  rw [resumeClimb]
  refine if_neg fun ends => ?_
  cases least with
  | none => cases ends
  | some bound => exact absurd (reached bound rfl) (not_le.mpr (of_decide_eq_true ends))

/-- A climb that is over leaves what follows to the operations outside. -/
theorem resumeClimb_leaves
    (leaves : ∀ next ∈ behind.head?, (Climb.above least).Leaves registry next.operator) :
    resumeClimb registry outer least left behind = associateFrom registry outer left behind := by
  cases behind with
  | nil => rfl
  | cons next further =>
    obtain ⟨bound, isBound, looser⟩ := leaves next rfl
    obtain rfl := Option.mem_def.mp isBound
    rw [resumeClimb]
    exact if_pos (decide_eq_true looser)

/-- An operation whose right operand takes up nothing more is completed, and its climb goes on. -/
theorem associateFrom_leaves
    (leaves : ∀ next ∈ behind.head?, (Climb.under pending).Leaves registry next.operator)
    (right : OperatorTree) :
    associateFrom registry (⟨pending, least⟩ :: outer) right behind =
      resumeClimb registry outer least (pending.complete right) behind := by
  cases behind with
  | nil => rfl
  | cons next further =>
    have choice : pending.climbsFrom? next.operator (registry.fixityOf next.operator) = .ok none :=
      leaves next rfl
    rw [associateFrom_cons, takeUp_leaves choice, resumeClimb]
    split <;> rfl

/-- An operator that a right operand takes up begins a climb above its operation. -/
theorem associateFrom_climbs {least : Precedence}
    (climbs : pending.climbsFrom? clause.operator (registry.fixityOf clause.operator) =
      .ok (some least)) :
    associateFrom registry (⟨pending, start⟩ :: outer) right (clause :: rest) =
      resumeClimb registry (⟨pending, start⟩ :: outer) (some least) right (clause :: rest) := by
  have reached (bound : Precedence) (isBound : bound ∈ some least) :
      bound ≤ (registry.fixityOf clause.operator).precedence :=
    Option.some.inj isBound ▸ PendingOperation.le_of_climbsFrom? climbs
  rw [resumeClimb_reached reached, associateFrom_cons, takeUp_climbs climbs]
  rfl

/-- An operator that must not follow a right operand is an error. -/
theorem associateFrom_conflict {error : FixityError}
    (conflict : pending.climbsFrom? clause.operator (registry.fixityOf clause.operator) =
      .error error) :
    associateFrom registry (⟨pending, start⟩ :: outer) right (clause :: rest) = .error error := by
  rw [associateFrom_cons, takeUp_error conflict]
  rfl

namespace Climb

/-- What a stack of climbs comes to from a loop on: over it, or with the waiting operation of the
loop on it. -/
def onStack (registry : Registry) (outer : List ClimbingOperation) (start : Option Precedence) :
    Climb → OperatorTree → List (Clause Reference Expression) → Except FixityError OperatorTree
  | above least => resumeClimb registry outer least
  | under pending => associateFrom registry (⟨pending, start⟩ :: outer)

namespace Ends

/-- A loop leaves the operator that it ends before. -/
theorem leaves (ends : loop.Ends registry left clauses outcome) :
    ∀ tree behind, outcome = .ok (tree, behind) →
      ∀ next ∈ behind.head?, loop.Leaves registry next.operator := by
  induction ends with
  | finish => rintro _ _ ⟨⟩ _ ⟨⟩
  | leave leaves =>
    rintro _ _ ⟨⟩ _ ⟨⟩
    exact leaves
  | operation _ _ _ _ further => exact further
  | climb _ _ _ _ further => exact further
  | noOperation | conflict | noClimb => rintro _ _ ⟨⟩

/-- A stack of climbs goes the way of a loop, and on from where the loop ends. -/
theorem onStack (ends : loop.Ends registry left clauses outcome) (outer : List ClimbingOperation)
    (start : Option Precedence) :
    loop.onStack registry outer start left clauses =
      outcome >>= fun (tree, behind) => loop.onStack registry outer start tree behind := by
  induction ends generalizing outer start with
  | finish => rfl
  | leave => rfl
  | @operation least left right clause rest behind outcome reached operand further completes
      goesOn =>
    have leaves := operand.leaves right behind rfl
    calc resumeClimb registry outer least left (clause :: rest)
      _ = associateFrom registry
            (⟨⟨left, clause.operator, registry.fixityOf clause.operator⟩, least⟩ :: outer)
            (.operand clause.expression) rest := resumeClimb_reached reached
      _ = associateFrom registry
            (⟨⟨left, clause.operator, registry.fixityOf clause.operator⟩, least⟩ :: outer) right
            behind := completes outer least
      _ = resumeClimb registry outer least (.operation clause.operator left right) behind :=
        associateFrom_leaves leaves right
      _ = _ := goesOn outer start
  | noOperation reached _ fails =>
    exact (resumeClimb_reached reached).trans (fails outer _)
  | conflict conflict => exact associateFrom_conflict conflict
  | @climb pending right higher clause rest behind least outcome climbs operand _
      higherOn further =>
    have leaves := operand.leaves higher behind rfl
    calc associateFrom registry (⟨pending, start⟩ :: outer) right (clause :: rest)
      _ = resumeClimb registry (⟨pending, start⟩ :: outer) (some least) right (clause :: rest) :=
        associateFrom_climbs climbs
      _ = resumeClimb registry (⟨pending, start⟩ :: outer) (some least) higher behind :=
        higherOn (⟨pending, start⟩ :: outer) none
      _ = associateFrom registry (⟨pending, start⟩ :: outer) higher behind :=
        resumeClimb_leaves leaves
      _ = _ := further outer start
  | @noClimb pending _ _ _ _ _ climbs _ fails =>
    exact (associateFrom_climbs climbs).trans (fails (⟨pending, start⟩ :: outer) none)

end Ends

end Climb

/-! ## The recursion ends -/

namespace Climb.Ends

/-- A loop leaves no more clauses than there are. -/
theorem length_le (ends : loop.Ends registry left clauses outcome) :
    ∀ tree behind, outcome = .ok (tree, behind) → behind.length ≤ clauses.length := by
  induction ends with
  | finish | leave =>
    rintro _ _ ⟨⟩
    exact Nat.le_refl _
  | operation _ _ _ operand further =>
    intro tree behind same
    exact Nat.le_succ_of_le (Nat.le_trans (further tree behind same) (operand _ _ rfl))
  | climb _ _ _ operand further =>
    intro tree behind same
    exact Nat.le_trans (further tree behind same) (operand _ _ rfl)
  | noOperation | conflict | noClimb => rintro _ _ ⟨⟩

/-- A climb takes up an operator that is no looser than what it is from. -/
theorem length_lt (ends : (above least).Ends registry left (clause :: rest) (.ok (tree, behind)))
    (reached : ∀ bound ∈ least, bound ≤ (registry.fixityOf clause.operator).precedence) :
    behind.length < (clause :: rest).length := by
  cases ends with
  | leave leaves =>
    obtain ⟨bound, isBound, looser⟩ := leaves
    exact absurd (reached bound isBound) (not_le.mpr looser)
  | operation _ operand further =>
    exact Nat.lt_succ_of_le (Nat.le_trans (further.length_le _ _ rfl) (operand.length_le _ _ rfl))

end Climb.Ends

/-- Every loop ends. -/
theorem Climb.exists_ends (registry : Registry) (loop : Climb) (tree : OperatorTree)
    (clauses : List (Clause Reference Expression)) :
    ∃ outcome, loop.Ends registry tree clauses outcome := by
  induction length : clauses.length using Nat.strongRecOn generalizing clauses loop tree with
  | ind n ih =>
    subst length
    cases clauses with
    | nil => exact ⟨_, .finish⟩
    | cons clause rest =>
      have climbs (least : Option Precedence) (left : OperatorTree) :
          ∃ outcome, (above least).Ends registry left (clause :: rest) outcome := by
        by_cases leaves : (above least).Leaves registry clause.operator
        · exact ⟨_, .leave leaves⟩
        · have reached (bound : Precedence) (isBound : bound ∈ least) :
              bound ≤ (registry.fixityOf clause.operator).precedence :=
            not_lt.mp fun looser => leaves ⟨bound, isBound, looser⟩
          obtain ⟨operand, completed⟩ := ih rest.length (Nat.lt_succ_self _)
            (under ⟨left, clause.operator, registry.fixityOf clause.operator⟩)
            (.operand clause.expression) rest rfl
          cases operand with
          | error error => exact ⟨_, .noOperation reached completed⟩
          | ok result =>
            have shorter := Nat.lt_succ_of_le (completed.length_le _ _ rfl)
            obtain ⟨outcome, further⟩ :=
              ih _ shorter (above least) (.operation clause.operator left result.1) result.2 rfl
            exact ⟨outcome, .operation reached completed further⟩
      cases loop with
      | above least => exact climbs least tree
      | under pending =>
        cases choice : pending.climbsFrom? clause.operator (registry.fixityOf clause.operator) with
        | error error => exact ⟨_, .conflict choice⟩
        | ok start =>
          cases start with
          | none => exact ⟨_, .leave choice⟩
          | some least =>
            obtain ⟨operand, climbed⟩ := climbs (some least) tree
            cases operand with
            | error error => exact ⟨_, .noClimb choice climbed⟩
            | ok result =>
              have reached (bound : Precedence) (isBound : bound ∈ some least) :
                  bound ≤ (registry.fixityOf clause.operator).precedence :=
                Option.some.inj isBound ▸ PendingOperation.le_of_climbsFrom? choice
              obtain ⟨outcome, further⟩ :=
                ih _ (climbed.length_lt reached) (under pending) result.1 result.2 rfl
              exact ⟨outcome, .climb choice climbed further⟩

/-! ## Main statement -/

/-- Grouping a chain by climbing ends for every chain, with what grouping it over a stack of waiting
operations gives: the same tree, and no clause is left, or the same error. -/
theorem climb_ends_iff (registry : Registry) (left : Expression)
    (clauses : List (Clause Reference Expression)) (outcome : Climb.Outcome) :
    (Climb.above none).Ends registry (.operand left) clauses outcome ↔
    outcome = (associate registry left clauses).map (·, []) := by
  have same (outcome : Climb.Outcome)
      (ends : (Climb.above none).Ends registry (.operand left) clauses outcome) :
      outcome = (associate registry left clauses).map (·, []) := by
    have whole : associate registry left clauses =
        resumeClimb registry [] none (.operand left) clauses := by
      cases clauses <;> rfl
    have way : resumeClimb registry [] none (.operand left) clauses = _ := ends.onStack [] none
    rw [whole, way]
    cases outcome with
    | error error => rfl
    | ok result =>
      have leaves := ends.leaves _ _ rfl
      obtain ⟨tree, behind⟩ := result
      cases behind with
      | nil => rfl
      | cons next further => exact nomatch leaves next rfl
  constructor
  · exact same outcome
  · rintro rfl
    obtain ⟨outcome, ends⟩ := Climb.exists_ends registry (.above none) (.operand left) clauses
    rwa [← same outcome ends]

end Marginalia
