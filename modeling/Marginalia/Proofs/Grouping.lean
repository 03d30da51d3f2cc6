import Marginalia.Proofs.Grouping.Search

/-!
# Grouping operator chains

Grouping a chain by climbing comes to the same as searching for a grouping, as long as adding one to
the precedence of an operator gives a greater precedence. The invariant of the stack of climbs says
from which precedence each of them is: from one more than that of the operation before, or from the
same precedence, where both group to the right. So the climbs that an operator ends are those whose
operations the search completes.

From 2 ^ 53 on adding one may give the same precedence. Then a climb for what binds tighter also
takes up what binds as tightly, and the chain is grouped in another way. Its operands and operators
stay in order with any precedences.
-/

namespace Marginalia

variable {registry : Registry} {pending : PendingOperation} {operator : Located Reference}
  {fixity : Fixity} {climbs taken outer : List ClimbingOperation} {least : Option Precedence}

/-! ## What a waiting operation does with an operator -/

namespace PendingOperation

/-- What comes of an operator that follows the right operand of a waiting operation: the operand
climbs to take up a tighter one from one more than the precedence of the operation, and one as tight
where both group to the right from that precedence. It leaves a looser one, and one as tight where
both group to the left. -/
inductive Follows (pending : PendingOperation) (operator : Located Reference) (fixity : Fixity) :
    Except FixityError (Option Precedence) → Prop where
  | tighter (above : pending.fixity.precedence < fixity.precedence) :
      Follows pending operator fixity (.ok (some pending.fixity.precedence.plusOne))
  | looser (below : fixity.precedence < pending.fixity.precedence) :
      Follows pending operator fixity (.ok none)
  | conflict {error : FixityError} (level : pending.fixity.precedence = fixity.precedence)
      (reported : pending.conflict? operator fixity = some error) :
      Follows pending operator fixity (.error error)
  | right (level : pending.fixity.precedence = fixity.precedence)
      (first : pending.fixity.associativity = .right) (second : fixity.associativity = .right) :
      Follows pending operator fixity (.ok (some pending.fixity.precedence))
  | left (level : pending.fixity.precedence = fixity.precedence)
      (noConflict : pending.conflict? operator fixity = none)
      (first : pending.fixity.associativity = .left) (second : fixity.associativity = .left) :
      Follows pending operator fixity (.ok none)

/-- Whether and from where the right operand climbs says how the operator follows it. -/
theorem follows_of_climbsFrom? {outcome : Except FixityError (Option Precedence)}
    (comes : pending.climbsFrom? operator fixity = outcome) :
    pending.Follows operator fixity outcome := by
  subst comes
  rw [climbsFrom?]
  by_cases above : pending.fixity.precedence < fixity.precedence
  · rw [if_pos above]
    exact .tighter above
  by_cases below : fixity.precedence < pending.fixity.precedence
  · rw [if_neg above, if_pos below]
    exact .looser below
  rw [if_neg above, if_neg below]
  have level : pending.fixity.precedence = fixity.precedence := by order
  cases reported : pending.conflict? operator fixity with
  | some error => exact .conflict level reported
  | none =>
    obtain ⟨same, associative⟩ := associativity_of_conflict?_eq_none reported
    cases side : pending.fixity.associativity with
    | left => exact .left level reported side (same ▸ side)
    | right => exact .right level side (same ▸ side)
    | none => exact absurd (same ▸ side) associative

/-- An operator that must not follow the right operand is in conflict with the operation when it
comes in. -/
theorem settle_of_climbsFrom? {error : FixityError}
    (conflict : pending.climbsFrom? operator fixity = .error error) (outer : List PendingOperation)
    (right : OperatorTree) : settle operator fixity (pending :: outer) right = .error error := by
  cases follows_of_climbsFrom? conflict with
  | conflict level reported => rw [settle, if_neg (by order), if_neg (by order), reported]

end PendingOperation

/-! ## Taking up an operator -/

section

variable {top : ClimbingOperation} {right : OperatorTree}

/-- An operator that must not follow the right operand of the operation waiting last is an error. -/
theorem takeUp_error {error : FixityError}
    (conflict : top.climbsFrom? operator fixity = .error error) :
    takeUp operator fixity (top :: outer) right = .error error := by
  rw [takeUp, conflict]

/-- An operator that the right operand takes up begins a climb. -/
theorem takeUp_climbs {least : Precedence}
    (climbs : top.climbsFrom? operator fixity = .ok (some least)) :
    takeUp operator fixity (top :: outer) right =
      .ok (⟨⟨right, operator, fixity⟩, some least⟩ :: top :: outer) := by
  rw [takeUp, climbs]

/-- Before any other operator the operation is completed, and then its climb goes on with the
operator or ends. -/
theorem takeUp_leaves (leaves : top.climbsFrom? operator fixity = .ok none) :
    takeUp operator fixity (top :: outer) right =
      if top.least.any (fixity.precedence < ·) then
        takeUp operator fixity outer (top.complete right)
      else .ok (⟨⟨top.complete right, operator, fixity⟩, top.least⟩ :: outer) := by
  rw [takeUp, leaves]

/-- What comes of an operator behind the right operand of the operation waiting last: a conflict, a
climb, or the end of the operation, and then also of its climb or not. -/
inductive TakesUp (operator : Located Reference) (fixity : Fixity) (top : ClimbingOperation)
    (outer : List ClimbingOperation) (right : OperatorTree) :
    Except FixityError (List ClimbingOperation) → Prop where
  | conflict {error : FixityError} (conflict : top.climbsFrom? operator fixity = .error error) :
      TakesUp operator fixity top outer right (.error error)
  | climb {least : Precedence} (climbs : top.climbsFrom? operator fixity = .ok (some least)) :
      TakesUp operator fixity top outer right
        (.ok (⟨⟨right, operator, fixity⟩, some least⟩ :: top :: outer))
  | ends {outcome : Except FixityError (List ClimbingOperation)}
      (leaves : top.climbsFrom? operator fixity = .ok none)
      (below : top.least.any (fixity.precedence < ·))
      (further : takeUp operator fixity outer (top.complete right) = outcome) :
      TakesUp operator fixity top outer right outcome
  | goesOn (leaves : top.climbsFrom? operator fixity = .ok none)
      (reached : ¬top.least.any (fixity.precedence < ·)) :
      TakesUp operator fixity top outer right
        (.ok (⟨⟨top.complete right, operator, fixity⟩, top.least⟩ :: outer))

/-- What taking up an operator comes to says what comes of the operation waiting last. -/
theorem takesUp_of_takeUp {outcome : Except FixityError (List ClimbingOperation)}
    (comes : takeUp operator fixity (top :: outer) right = outcome) :
    TakesUp operator fixity top outer right outcome := by
  subst comes
  cases choice : top.climbsFrom? operator fixity with
  | error error =>
    rw [takeUp_error choice]
    exact .conflict choice
  | ok start =>
    cases start with
    | some least =>
      rw [takeUp_climbs choice]
      exact .climb choice
    | none =>
      rw [takeUp_leaves choice]
      by_cases below : top.least.any (fixity.precedence < ·)
      · rw [if_pos below]
        exact .ends choice below rfl
      · rw [if_neg below]
        exact .goesOn choice below

end

/-- The operator of the next clause is taken up, and then waits for its right operand. -/
theorem associateFrom_cons (registry : Registry) (climbs : List ClimbingOperation)
    (last : OperatorTree) (clause : Clause Reference Expression)
    (rest : List (Clause Reference Expression)) :
    associateFrom registry climbs last (clause :: rest) =
      takeUp clause.operator (registry.fixityOf clause.operator) climbs last >>= fun taken =>
        associateFrom registry taken (.operand clause.expression) rest := rfl

/-! ## Order -/

/-- The operations that wait in climbs. -/
def operationsOf (climbs : List ClimbingOperation) : List PendingOperation :=
  climbs.map (·.toPendingOperation)

/-- An operator that is taken up comes behind everything that was read. -/
theorem itemsBefore_takeUp {right : OperatorTree}
    (takes : takeUp operator fixity climbs right = .ok taken) :
    itemsBefore (operationsOf taken) =
      itemsBefore (operationsOf climbs) ++ right.inorder ++ [.operator operator] := by
  induction climbs generalizing right with
  | nil =>
    obtain rfl := Except.ok.inj takes
    simp [operationsOf, itemsBefore]
  | cons top outer ih =>
    cases takesUp_of_takeUp takes with
    | climb => simp [operationsOf, itemsBefore]
    | ends _ _ further =>
      rw [ih further]
      simp [operationsOf, itemsBefore, inorder_complete]
    | goesOn => simp [operationsOf, itemsBefore, inorder_complete]

/-- Whatever the precedences are, grouping keeps the order of what was read and of what follows. -/
theorem associateFrom_inorder {last : Expression} {clauses : List (Clause Reference Expression)}
    {tree : OperatorTree}
    (found : associateFrom registry climbs (.operand last) clauses = .ok tree) :
    tree.inorder = itemsBefore (operationsOf climbs) ++ chainItems last clauses := by
  induction clauses generalizing climbs last with
  | nil =>
    obtain rfl := Except.ok.inj found
    exact inorder_completeAll _ _
  | cons clause rest ih =>
    rw [associateFrom_cons] at found
    cases takes : takeUp clause.operator (registry.fixityOf clause.operator) climbs
        (.operand last) with
    | error error =>
      rw [takes] at found
      cases found
    | ok taken =>
      rw [takes] at found
      rw [ih found, itemsBefore_takeUp takes]
      simp [chainItems, OperatorTree.inorder]

/-! ## Climbing as a search -/

/-- Adding one to the precedence gives a greater one. -/
def Precedence.Raisable (p : Precedence) : Prop := p < p.plusOne

instance (p : Precedence) : Decidable p.Raisable := inferInstanceAs (Decidable (p < p.plusOne))

/-- Operators with a fixity may be taken up by a climb over waiting operations: it takes up every
operator where nothing waits, is from one more than the precedence of the operation waiting last,
where the fixity is tighter, or is from that precedence, where the fixity is as tight and both group
to the right. -/
def ClimbsOver (least : Option Precedence) (fixity : Fixity) : List ClimbingOperation → Prop
  | [] => least = none
  | top :: _ =>
    least = some top.fixity.precedence.plusOne ∧ top.fixity.precedence < fixity.precedence ∨
      least = some top.fixity.precedence ∧ top.fixity.precedence = fixity.precedence ∧
        top.fixity.associativity = .right ∧ fixity.associativity = .right

/-- Each of the climbs goes over the operations that waited when it began, and one more than the
precedence of each is greater. -/
def Ascending : List ClimbingOperation → Prop
  | [] => True
  | climb :: outer =>
    ClimbsOver climb.least climb.fixity outer ∧ climb.fixity.precedence.Raisable ∧ Ascending outer

/-- An operator that a climb takes up may stand on the right of the operation waiting last. -/
theorem ClimbsOver.topAdmits (begun : ClimbsOver least fixity outer) :
    TopAdmits (operationsOf outer) fixity := by
  intro top isTop
  cases outer with
  | nil => cases isTop
  | cons first further =>
    obtain rfl := Option.some.inj isTop
    rcases begun with ⟨-, tighter⟩ | ⟨-, level, topRight, isRight⟩
    · exact .inl tighter
    · exact .inr ⟨level, topRight, isRight⟩

/-- A climb takes up what binds as tightly as an operator that it took up. -/
theorem ClimbsOver.reached (begun : ClimbsOver least fixity outer) :
    least.any (fixity.precedence < ·) = false := by
  cases outer with
  | nil =>
    rw [show least = none from begun]
    rfl
  | cons first further =>
    rcases begun with ⟨rfl, tighter⟩ | ⟨rfl, level, -⟩
    · simpa using Precedence.plusOne_le tighter
    · simp [level]

/-- Behind an operation that a climb completed it goes on with an operator that does not end it. -/
theorem ClimbsOver.goesOn (begun : ClimbsOver least pending.fixity outer)
    (ascending : Ascending outer) (leaves : pending.climbsFrom? operator fixity = .ok none)
    (reached : ¬least.any (fixity.precedence < ·)) : ClimbsOver least fixity outer := by
  cases outer with
  | nil => exact begun
  | cons first further =>
    have raisable : first.fixity.precedence < first.fixity.precedence.plusOne := ascending.2.1
    rcases begun with ⟨rfl, tighter⟩ | ⟨rfl, level, firstRight, isRight⟩
    · have above : first.fixity.precedence.plusOne ≤ fixity.precedence := by simpa using reached
      exact .inl ⟨rfl, by order⟩
    · have above : first.fixity.precedence ≤ fixity.precedence := by simpa using reached
      -- The operation groups to the right, so only a looser operator follows its right operand.
      cases PendingOperation.follows_of_climbsFrom? leaves with
      | looser below => order
      | left _ _ isLeft =>
        rw [isRight] at isLeft
        cases isLeft

/-- The climb of a right operand goes over the operation that it belongs to. -/
theorem climbsOver_of_climbsFrom? {top : ClimbingOperation} {least : Precedence}
    (takes : top.climbsFrom? operator fixity = .ok (some least)) (outer : List ClimbingOperation) :
    ClimbsOver (some least) fixity (top :: outer) := by
  cases PendingOperation.follows_of_climbsFrom? takes with
  | tighter above => exact .inl ⟨rfl, above⟩
  | right level first second => exact .inr ⟨rfl, level, first, second⟩

/-- An operator that is taken up keeps the climbs ascending. -/
theorem Ascending.takeUp {right : OperatorTree} (ascending : Ascending climbs)
    (raisable : fixity.precedence.Raisable)
    (takes : Marginalia.takeUp operator fixity climbs right = .ok taken) : Ascending taken := by
  induction climbs generalizing right with
  | nil =>
    obtain rfl := Except.ok.inj takes
    exact ⟨rfl, raisable, trivial⟩
  | cons top outer ih =>
    have begun := ascending.1
    have further := ascending.2.2
    cases takesUp_of_takeUp takes with
    | climb climbs => exact ⟨climbsOver_of_climbsFrom? climbs outer, raisable, ascending⟩
    | ends _ _ taking => exact ih further taking
    | goesOn leaves reached => exact ⟨begun.goesOn further leaves reached, raisable, further⟩

/-- The operations that an operator completes by ending climbs are those that it settles. -/
theorem takeUp_eq_settle (ascending : Ascending climbs) (right : OperatorTree) :
    (takeUp operator fixity climbs right).map operationsOf =
      (settle operator fixity (operationsOf climbs) right).map fun (outer, left) =>
        ⟨left, operator, fixity⟩ :: outer := by
  induction climbs generalizing right with
  | nil => rfl
  | cons top outer ih =>
    obtain ⟨begun, -, further⟩ := ascending
    have split : operationsOf (top :: outer) = top.toPendingOperation :: operationsOf outer := rfl
    cases choice : top.climbsFrom? operator fixity with
    | error error =>
      rw [takeUp_error choice, split, PendingOperation.settle_of_climbsFrom? choice]
      rfl
    | ok start =>
      cases start with
      | some least =>
        have admits := (climbsOver_of_climbsFrom? choice outer).topAdmits
        rw [takeUp_climbs choice, stays_of_topAdmits admits operator right]
        rfl
      | none =>
        have settled : settle operator fixity (operationsOf (top :: outer)) right =
            settle operator fixity (operationsOf outer) (top.complete right) := by
          rw [split, settle]
          cases PendingOperation.follows_of_climbsFrom? choice with
          | looser below => rw [if_pos below]
          | left level noConflict first second =>
            have admits : TopAdmits (operationsOf outer) fixity := fun operation isFirst =>
              (begun.topAdmits operation isFirst).of_level level first
            rw [if_neg (by order), if_neg (by order), noConflict, stays_of_topAdmits admits]
            simp [second]
        rw [takeUp_leaves choice, settled]
        by_cases ends : top.least.any (fixity.precedence < ·)
        · rw [if_pos ends]
          exact ih further (top.complete right)
        · have admits := (begun.goesOn further choice ends).topAdmits
          rw [if_neg ends, stays_of_topAdmits admits]
          rfl

/-- From ascending climbs on the clauses that follow are grouped as the search does it. -/
theorem associateFrom_eq {clauses : List (Clause Reference Expression)}
    (ascending : Ascending climbs)
    (raisable : ∀ clause ∈ clauses, (registry.fixityOf clause.operator).precedence.Raisable)
    (last : OperatorTree) :
    associateFrom registry climbs last clauses =
      findGroupingFrom registry (operationsOf climbs) last clauses := by
  induction clauses generalizing climbs last with
  | nil => rfl
  | cons clause rest ih =>
    obtain ⟨first, others⟩ := List.forall_mem_cons.mp raisable
    have same : (takeUp clause.operator (registry.fixityOf clause.operator) climbs last).map
        operationsOf = _ := takeUp_eq_settle ascending last
    rw [associateFrom_cons, findGroupingFrom]
    cases settled : settle clause.operator (registry.fixityOf clause.operator)
        (operationsOf climbs) last with
    | error error =>
      rw [settled] at same
      cases takes : takeUp clause.operator (registry.fixityOf clause.operator) climbs last with
      | error other =>
        rw [takes] at same
        exact congrArg Except.error (Except.error.inj same)
      | ok taken =>
        rw [takes] at same
        cases same
    | ok result =>
      rw [settled] at same
      cases takes : takeUp clause.operator (registry.fixityOf clause.operator) climbs last with
      | error other =>
        rw [takes] at same
        cases same
      | ok taken =>
        rw [takes] at same
        have operations := Except.ok.inj same
        have kept := ih (ascending.takeUp first takes) others (.operand clause.expression)
        rw [operations] at kept
        exact kept

/-! ## Main statement -/

/-- Every operator of the chain has a precedence that adding one makes greater. All precedences from
-2 ^ 53 up to 2 ^ 53 are such, those of the core library and of all declarations and configurations
among them. -/
def Registry.Raises (registry : Registry) (clauses : List (Clause Reference Expression)) : Prop :=
  ∀ clause ∈ clauses, (registry.fixityOf clause.operator).precedence.Raisable

/-- Precedences from -2 ^ 53 up to 2 ^ 53 are made greater by adding one. -/
theorem Registry.raises_of_bounds {clauses : List (Clause Reference Expression)}
    (low : ∀ clause ∈ clauses,
      -(2 * Binary64.hiddenBit : Nat) ≤ (registry.fixityOf clause.operator).precedence.value)
    (high : ∀ clause ∈ clauses,
      (registry.fixityOf clause.operator).precedence.value < (2 * Binary64.hiddenBit : Nat)) :
    registry.Raises clauses :=
  fun clause member => Precedence.lt_plusOne (low clause member) (high clause member)

/-- Grouping a chain is searching for a grouping. -/
theorem associate_eq_findGrouping {clauses : List (Clause Reference Expression)}
    (raises : registry.Raises clauses) (left : Expression) :
    associate registry left clauses = findGrouping registry left clauses := by
  have nothing : Ascending [] := trivial
  exact associateFrom_eq nothing raises (.operand left)

/-- What is found groups the chain. -/
theorem isGrouping_of_associate {clauses : List (Clause Reference Expression)} {left : Expression}
    {tree : OperatorTree} (raises : registry.Raises clauses)
    (found : associate registry left clauses = .ok tree) :
    IsGrouping registry left clauses tree := by
  rw [associate_eq_findGrouping raises] at found
  have waiting : Waiting registry [] := trivial
  obtain ⟨grouped, order⟩ := findGroupingFrom_grouped waiting found
  exact ⟨order, grouped⟩

/-- Grouping a chain is sound, complete and canonical as long as adding one to the precedence of
each of its operators gives a greater precedence: a tree that is found groups the chain, and there
is an error exactly where no tree does. No two trees group one chain, and its operands and operators
stay in order, whatever the precedences are. -/
theorem associate_groups (registry : Registry) (left : Expression)
    (clauses : List (Clause Reference Expression)) :
    (∀ tree, associate registry left clauses = .ok tree →
      tree.inorder = chainItems left clauses) ∧
    (∀ first second, IsGrouping registry left clauses first →
      IsGrouping registry left clauses second → first = second) ∧
    (registry.Raises clauses →
      (∀ tree, associate registry left clauses = .ok tree →
        IsGrouping registry left clauses tree) ∧
      ((∃ error, associate registry left clauses = .error error) ↔
        ¬∃ tree, IsGrouping registry left clauses tree)) := by
  refine ⟨fun tree found => associateFrom_inorder found, ?_, fun raises => ?_⟩
  · intro first second isFirst isSecond
    have found := findGrouping_of_isGrouping isFirst
    rw [findGrouping_of_isGrouping isSecond] at found
    exact (Except.ok.inj found).symm
  · refine ⟨fun tree => isGrouping_of_associate raises, ?_, ?_⟩
    · rintro ⟨error, failed⟩ ⟨tree, grouping⟩
      rw [associate_eq_findGrouping raises, findGrouping_of_isGrouping grouping] at failed
      cases failed
    · intro none
      cases result : associate registry left clauses with
      | error error => exact ⟨error, rfl⟩
      | ok tree => exact absurd ⟨tree, isGrouping_of_associate raises result⟩ none

/-- A chain of units with these operators between them. -/
def unitChain (symbols : List String) : List (Clause Reference Expression) :=
  symbols.map fun symbol =>
    ⟨[], ⟨default, .operator (Text.ofString symbol)⟩, [], ⟨default, .unit []⟩⟩

/-- A difference and a product of units, followed by a conjunction, has a grouping. -/
theorem units_group :
    Registry.builtin.Raises (unitChain ["-", "*", "&&"]) ∧
      ∃ tree, associate .builtin ⟨default, .unit []⟩ (unitChain ["-", "*", "&&"]) = .ok tree ∧
        IsGrouping .builtin ⟨default, .unit []⟩ (unitChain ["-", "*", "&&"]) tree := by
  have raises : Registry.builtin.Raises (unitChain ["-", "*", "&&"]) := by
    unfold Registry.Raises
    decide +kernel
  exact ⟨raises, _, rfl, ((associate_groups _ _ _).2.2 raises).1 _ rfl⟩

/-- Fixities of a sum and a product whose precedences are so great that one more than that of the
sum is the same precedence, and still less than that of the product. -/
def greatRegistry (side : Associativity) : Registry :=
  ⟨[("+", ⟨side, 9007199254740992⟩), ("*", ⟨.left, 9007199254740994⟩)]⟩

/-- With precedences that are too great the product of a first sum takes up a second sum, although
sums group to the left. -/
theorem great_sum_is_misgrouped :
    ∃ tree, associate (greatRegistry .left) ⟨default, .unit []⟩ (unitChain ["+", "*", "+"]) =
        .ok tree ∧
      ¬IsGrouping (greatRegistry .left) ⟨default, .unit []⟩ (unitChain ["+", "*", "+"]) tree := by
  refine ⟨_, rfl, fun grouping => ?_⟩
  have under : Fixity.Admits ⟨.left, 9007199254740992⟩ ⟨.left, 9007199254740992⟩ .right :=
    grouping.grouped.2.1
  rcases under with tighter | ⟨-, isRight, -⟩
  · exact lt_irrefl _ tighter
  · cases isRight

end Marginalia
