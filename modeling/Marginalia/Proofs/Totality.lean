import Marginalia.Proofs.Lockstep.Module

/-!
# Reading comes to an end

Every run of the grammar on the tokens of a source ends in a tree or in a report about a token, and
the end of the source stays unread. A rule that is entered while it is running is entered at a later
token, and a loop that goes on has read a token: so none of the bounds that the parsers carry is
ever met, on a source of any length.

An input corresponds to itself, and along this correspondence what is known of parsers in lockstep
becomes a statement about a single run. That a rule is only entered again at a later token is told
by a second grammar over the same rules, which is cut short where it is not: the two grammars read
the same.
-/

namespace Marginalia

open Marginalia.Parser

variable {α β γ : Type} {input : Input}

/-! ## Outcomes -/

/-- The outcome of a run that comes to an end at a token: a value, with the tokens before some index
read, or a report about a token. -/
inductive Input.Ends (input : Input) (least : Nat) : Outcome α → Prop where
  | done {value : α} {cursor : Cursor} (place : input.At cursor) (read : least ≤ cursor.index) :
      Ends input least (.done value cursor)
  | rejected {error : ParseError} {cursor : Cursor} (place : input.At cursor)
      (found : ∀ position, error ≠ .noTokens position) :
      Ends input least (.failed (.rejected error) cursor)

/-- From wherever it begins, the parser comes to an end, and where it succeeds it has read so many
tokens at least. -/
def Input.Finishes (input : Input) (least : Nat) (parser : Parser α) : Prop :=
  ∀ cursor, input.At cursor → input.Ends (cursor.index + least) (parser input cursor)

/-- Every input corresponds to itself. -/
def diagonal (scanned : input.Scanned) : Correspondence input input where
  leftView := .full
  rightView := .full
  Along := fun l r => l = r ∧ input.At l
  Found := Eq
  scannedLeft := scanned
  scannedRight := scanned
  size_le := Nat.le_refl _
  standsLeft := fun along => along.2
  standsRight := fun along => along.1 ▸ along.2
  indentation := fun along => congrArg Cursor.indentation along.1
  reindent := by
    rintro l r ⟨rfl, before, next, after, stands⟩ levels
    exact ⟨rfl, before, next, after, stands.tokens, stands.index, stands.position⟩
  position := fun along => congrArg Cursor.position along.1
  column := fun along => congrArg (·.position.column) along.1
  offset := by
    rintro l r l' r' ⟨rfl, -⟩ ⟨rfl, -⟩
    exact Iff.rfl
  crossed := by
    rintro l r l' r' ⟨rfl, -⟩ ⟨rfl, -⟩
    rfl
  sees := by
    rintro l r t t' ⟨rfl, -⟩ found found'
    obtain rfl : t = t' := Option.some.inj (found.symm.trans found')
    exact ⟨rfl, .inl ⟨rfl, Iff.rfl⟩⟩
  past := by
    rintro l r t t' ⟨rfl, before, next, after, stands⟩ found found' - - - notEnd
    obtain rfl : t = t' := Option.some.inj (found.symm.trans found')
    obtain rfl : next = t := Option.some.inj (stands.tokenAt?.symm.trans found)
    obtain ⟨second, rest, -, stands', -⟩ := stands.past scanned notEnd
    exact ⟨rfl, _, second, rest, stands'⟩
  skips := by
    rintro l r l' r' comments comments' ⟨rfl, before, next, after, stands⟩ run run'
    obtain ⟨rfl, rfl⟩ := Outcome.done.inj (run.symm.trans run')
    obtain ⟨_, _, _, _, _, again, stands', -⟩ := stands.whitespace scanned
    obtain ⟨-, rfl⟩ := Outcome.done.inj (again.symm.trans run)
    exact ⟨rfl, rfl, _, _, _, stands'⟩

section Diagonal

variable (scanned : input.Scanned) {seen : View → α → γ} {least n : Nat} {p q : Parser α}

/-- A parser in lockstep with itself comes to an end. -/
theorem Input.Finishes.of_steps (steps : ∀ n, (diagonal scanned).Steps n least seen p p) :
    input.Finishes least p := by
  intro cursor place
  have meets := steps _ cursor cursor ⟨rfl, place⟩ (Nat.le_refl _)
  generalize p input cursor = outcome at meets
  cases meets with
  | done leads => exact .done leads.along.2 leads.index
  | failed faults along =>
    refine .rejected along.2 fun position same => ?_
    cases faults <;> cases same

/-- Parsers in lockstep on one input read the same. -/
theorem eq_of_steps {seen : View → α → α} (seenFull : ∀ value, seen .full value = value)
    (steps : (diagonal scanned).Steps n least seen p q) {cursor : Cursor} (place : input.At cursor)
    (within : input.tokens.size - cursor.index ≤ n) : p input cursor = q input cursor := by
  have meets := steps cursor cursor ⟨rfl, place⟩ within
  generalize p input cursor = outcome at meets
  generalize q input cursor = outcome' at meets
  cases meets with
  | @done a b l r leads =>
    have same : seen .full a = seen .full b := leads.same
    obtain rfl : l = r := leads.along.1
    rw [seenFull, seenFull] at same
    rw [same]
  | @failed e e' l r faults along =>
    obtain rfl : l = r := along.1
    cases faults with
    | unexpected expected found =>
      obtain rfl : _ = _ := found
      rfl
    | @invalidPrecedence t t' same _ =>
      obtain rfl : t = t' := same
      rfl

end Diagonal

/-! ## Rules that are entered again -/

/-- Runs a rule, and is cut short where a run of the rule that began at this token or a later one is
under way. -/
def Parser.watch (running : List Nat) (rule : List Nat → Parser α) : Parser α := fun input cursor =>
  if ∀ start ∈ running, start < cursor.index then rule (cursor.index :: running) input cursor
  else interrupt (.crash "The rule is entered again without a token read.") input cursor

/-- A rule and the rule of its terms, each over the parsers of what stands inside: anything, and
terms. -/
structure Recursion (α : Type) where
  /-- Anything, over what stands inside and over its own terms. -/
  whole : Parser α → Parser α → Parser α
  /-- A term, over what stands inside. -/
  term : Parser α → Parser α → Parser α

/-- Two rules at one level, told where the runs of both that are under way have begun. -/
structure Watched (α : Type) where
  /-- The rule for anything. -/
  whole : List Nat → List Nat → Parser α
  /-- The rule for terms. -/
  term : List Nat → List Nat → Parser α

/-- The rules with at most so many levels inside them, both watched. -/
def Recursion.watched (rules : Recursion α) : Nat → Watched α
  | 0 => ⟨fun _ _ => interrupt .exhausted, fun _ _ => interrupt .exhausted⟩
  | levels + 1 =>
    let inner := rules.watched levels
    let term wholes terms := watch terms fun terms =>
      rules.term (inner.whole wholes terms) (inner.term wholes terms)
    ⟨fun wholes terms => watch wholes fun wholes =>
        rules.whole (inner.whole wholes terms) (term wholes terms), term⟩

section Levels

variable (rules : Recursion α) (levels : Nat) (wholes terms : List Nat)

/-- A watched term enters the rules one level further in, with its own run under way. -/
theorem Recursion.watched_term :
    (rules.watched (levels + 1)).term wholes terms = watch terms fun terms =>
    rules.term ((rules.watched levels).whole wholes terms)
      ((rules.watched levels).term wholes terms) := rfl

/-- A watched rule enters its terms at its own level, with its own run under way. -/
theorem Recursion.watched_whole :
    (rules.watched (levels + 1)).whole wholes terms = watch wholes fun wholes =>
    rules.whole ((rules.watched levels).whole wholes terms)
      ((rules.watched (levels + 1)).term wholes terms) := rfl

end Levels

namespace Grammar

/-- The rules of expressions and their terms. -/
def expressionRules : Recursion Expression := ⟨expressionOver, termOver⟩

/-- The rules of patterns and their terms. -/
def patternRules : Recursion Pattern :=
  ⟨fun _ term => patternOver term, fun pattern _ => patternTermOver pattern⟩

/-- The rules of types and their terms. -/
def typeRules : Recursion TypeExpression :=
  ⟨fun _ term => typeOver term, fun type _ => typeTermOver type⟩

end Grammar

/-- The rules keep parsers in lockstep, and leave one token less to what stands inside. -/
structure Recursion.Keeps (rules : Recursion α) (c : Correspondence input input)
    (seen : View → α → γ) : Prop where
  /-- The rule for anything may enter its terms at once. -/
  whole {n : Nat} {p q s t : Parser α} (inner : c.Steps (n - 1) 1 seen p q)
    (terms : c.Steps n 1 seen s t) : c.Steps n 1 seen (rules.whole p s) (rules.whole q t)
  /-- The rule for terms reads a token before it enters any rule. -/
  term {n : Nat} {p q s t : Parser α} (inner : c.Steps (n - 1) 1 seen p q)
    (terms : c.Steps (n - 1) 1 seen s t) : c.Steps n 1 seen (rules.term p s) (rules.term q t)

section Watching

variable {scanned : input.Scanned} {seen : View → α → γ}

/-- A watched rule is in lockstep with a parser, if the rule is wherever it may be entered. -/
theorem watch_steps {n : Nat} {running : List Nat} {rule : List Nat → Parser α} {q : Parser α}
    (earlier : ∀ start ∈ running, start + n < input.tokens.size)
    (steps : ∀ index, index < input.tokens.size → input.tokens.size - index ≤ n →
      (diagonal scanned).Steps (input.tokens.size - index) 1 seen (rule (index :: running)) q) :
    (diagonal scanned).Steps n 1 seen (watch running rule) q := by
  rintro l r ⟨rfl, place⟩ within
  obtain ⟨_, _, _, stands⟩ := place
  have inside := stands.index_lt
  have enters : ∀ start ∈ running, start < l.index := by
    intro start member
    have bound := earlier start member
    omega
  have run : watch running rule input l = rule (l.index :: running) input l := if_pos enters
  rw [run]
  exact steps l.index inside within l l ⟨rfl, _, _, _, stands⟩ (Nat.le_refl _)

/-- A rule that is entered at a token, and those that were under way, have begun before the tokens
that are left then. -/
theorem earlier_cons {size index n : Nat} {running : List Nat} (inside : index < size)
    (within : size - index ≤ n) (earlier : ∀ start ∈ running, start + n < size) :
    ∀ start ∈ index :: running, start + (size - index - 1) < size := by
  refine List.forall_mem_cons.mpr ⟨by omega, fun start member => ?_⟩
  have bound := earlier start member
  omega

/-- Watched rules are in lockstep with the rules themselves, at all levels that exceed the tokens
left. -/
theorem Recursion.watched_steps {rules : Recursion α} (keeps : rules.Keeps (diagonal scanned) seen)
    (whole term : Nat → Parser α)
    (wholeOuter : ∀ levels, whole (levels + 1) = rules.whole (whole levels) (term (levels + 1)))
    (termOuter : ∀ levels, term (levels + 1) = rules.term (whole levels) (term levels)) (n : Nat) :
    ∀ bound bound', n < bound → n < bound' →
      ∀ wholes terms : List Nat, (∀ start ∈ wholes, start + (n - 1) < input.tokens.size) →
      (∀ start ∈ terms, start + n < input.tokens.size) →
      (diagonal scanned).Steps n 1 seen ((rules.watched bound).term wholes terms) (term bound') ∧
      ((∀ start ∈ wholes, start + n < input.tokens.size) → (diagonal scanned).Steps n 1 seen
      ((rules.watched bound).whole wholes terms) (whole bound')) := by
  induction n using Nat.strongRecOn with
  | ind n ih =>
    intro bound bound' enough enough' wholes terms wholesBelow termsBelow
    obtain ⟨bound, rfl⟩ : ∃ inner, bound = inner + 1 := ⟨bound - 1, by omega⟩
    obtain ⟨bound', rfl⟩ : ∃ inner, bound' = inner + 1 := ⟨bound' - 1, by omega⟩
    -- Inside a rule that was entered at a token there are fewer tokens left, whatever was under
    -- way.
    have inner :
        ∀ index, index < input.tokens.size → input.tokens.size - index ≤ n → ∀ wholes terms :
        List Nat, (∀ start ∈ wholes, start + (input.tokens.size - index - 1) < input.tokens.size) →
          (∀ start ∈ terms, start + (input.tokens.size - index - 1) < input.tokens.size) →
          (diagonal scanned).Steps (input.tokens.size - index - 1) 1 seen
          ((rules.watched bound).term wholes terms) (term bound') ∧
          (diagonal scanned).Steps (input.tokens.size - index - 1) 1 seen
          ((rules.watched bound).whole wholes terms) (whole bound') := by
      intro index inside within wholes terms wholesBelow termsBelow
      have further := ih (input.tokens.size - index - 1) (by omega) bound bound'
        (by omega) (by omega) wholes terms
        (fun start member => by have below := wholesBelow start member; omega) termsBelow
      exact ⟨further.1, further.2 wholesBelow⟩
    have terminal : ∀ m ≤ n, ∀ wholes terms : List Nat,
          (∀ start ∈ wholes, start + (m - 1) < input.tokens.size) →
          (∀ start ∈ terms, start + m < input.tokens.size) → (diagonal scanned).Steps m 1 seen
          ((rules.watched (bound + 1)).term wholes terms) (term (bound' + 1)) := by
      intro m le wholes terms wholesBelow termsBelow
      rw [termOuter, Recursion.watched_term]
      refine watch_steps termsBelow fun index inside within => ?_
      have ⟨innerTerm, innerWhole⟩ := inner index inside (by omega) wholes (index :: terms)
        (fun start member => by have below := wholesBelow start member; omega)
        (earlier_cons inside within termsBelow)
      exact keeps.term innerWhole innerTerm
    refine ⟨terminal n (Nat.le_refl _) wholes terms wholesBelow termsBelow, fun wholesEarlier => ?_⟩
    rw [wholeOuter, Recursion.watched_whole]
    refine watch_steps wholesEarlier fun index inside within => ?_
    have begun := earlier_cons inside within wholesEarlier
    have ⟨_, innerWhole⟩ := inner index inside within (index :: wholes) terms begun
      fun start member => by have below := termsBelow start member; omega
    refine keeps.whole innerWhole
      (terminal _ within (index :: wholes) terms begun fun start member => ?_)
    have below := termsBelow start member
    omega

end Watching

namespace Grammar

section Rules

variable {scanned : input.Scanned}

/-- The rules of expressions leave one token less to the expressions inside. -/
theorem expressionRules_keeps : expressionRules.Keeps (diagonal scanned) Expression.view where
  whole := fun inner terms => expressionOver_steps inner terms
  term := fun inner terms => termOver_steps inner terms

/-- The rules of patterns leave one token less to the patterns inside. -/
theorem patternRules_keeps : patternRules.Keeps (diagonal scanned) Pattern.view where
  whole := fun _ terms => patternOver_steps terms
  term := fun inner _ => patternTermOver_steps inner

/-- The rules of types leave one token less to the types inside. -/
theorem typeRules_keeps : typeRules.Keeps (diagonal scanned) TypeExpression.view where
  whole := fun _ terms => typeOver_steps terms
  term := fun inner _ => typeTermOver_steps inner

end Rules

/-- From a cursor on, the watched rules with so many levels read what the rule and the rule of its
terms read. -/
def WatchedAlike (rules : Recursion α) (whole term : Parser α) (input : Input) (levels : Nat)
    (cursor : Cursor) : Prop :=
  (rules.watched levels).whole [] [] input cursor = whole input cursor ∧
    (rules.watched levels).term [] [] input cursor = term input cursor

section Entered

variable (scanned : input.Scanned) {levels : Nat} (enough : input.tokens.size < levels)
  {cursor : Cursor} (place : input.At cursor)

include scanned enough place

/-- Expressions and their terms are only entered again at later tokens. -/
theorem expression_watched : WatchedAlike expressionRules expression term input levels cursor := by
  obtain ⟨terms, wholes⟩ := Recursion.watched_steps expressionRules_keeps
    (fun levels => (Nested.within levels).expression) (fun levels => (Nested.within levels).term)
    (fun _ => rfl) (fun _ => rfl) input.tokens.size levels input.nestingLimit enough
    (Correspondence.Steps.size_lt_nestingLimit input) [] [] nofun nofun
  exact ⟨eq_of_steps scanned Expression.view_full (wholes nofun) place (Nat.sub_le _ _),
    eq_of_steps scanned Expression.view_full terms place (Nat.sub_le _ _)⟩

/-- Patterns and their terms are only entered again at later tokens. -/
theorem pattern_watched : WatchedAlike patternRules pattern patternTerm input levels cursor := by
  have limit := Correspondence.Steps.size_lt_nestingLimit input
  obtain ⟨terms, wholes⟩ := Recursion.watched_steps patternRules_keeps
    (fun levels => patternOver (patternTermWithin levels)) patternTermWithin (fun _ => rfl)
    (fun _ => rfl) input.tokens.size levels input.nestingLimit enough limit [] [] nofun nofun
  have knot : (diagonal scanned).Steps input.tokens.size 1 Pattern.view
        (patternTermWithin input.nestingLimit) patternTerm :=
    fun l r along within => patternTermWithin_steps _ _ _ limit limit l r along within
  have same : (diagonal scanned).Steps input.tokens.size 1 Pattern.view
      (patternOver (patternTermWithin input.nestingLimit)) pattern := patternOver_steps knot
  refine ⟨?_, eq_of_steps scanned Pattern.view_full terms place (Nat.sub_le _ _)⟩
  rw [← eq_of_steps scanned Pattern.view_full same place (Nat.sub_le _ _)]
  exact eq_of_steps scanned Pattern.view_full (wholes nofun) place (Nat.sub_le _ _)

/-- Types and their terms are only entered again at later tokens. -/
theorem typeExpression_watched :
    WatchedAlike typeRules typeExpression typeTerm input levels cursor := by
  have limit := Correspondence.Steps.size_lt_nestingLimit input
  obtain ⟨terms, wholes⟩ := Recursion.watched_steps typeRules_keeps
    (fun levels => typeOver (typeTermWithin levels)) typeTermWithin (fun _ => rfl)
    (fun _ => rfl) input.tokens.size levels input.nestingLimit enough limit [] [] nofun nofun
  have knot : (diagonal scanned).Steps input.tokens.size 1 TypeExpression.view
        (typeTermWithin input.nestingLimit) typeTerm :=
    fun l r along within => typeTermWithin_steps _ _ _ limit limit l r along within
  have same : (diagonal scanned).Steps input.tokens.size 1 TypeExpression.view
      (typeOver (typeTermWithin input.nestingLimit)) typeExpression := typeOver_steps knot
  refine ⟨?_, eq_of_steps scanned TypeExpression.view_full terms place (Nat.sub_le _ _)⟩
  rw [← eq_of_steps scanned TypeExpression.view_full same place (Nat.sub_le _ _)]
  exact eq_of_steps scanned TypeExpression.view_full (wholes nofun) place (Nat.sub_le _ _)

end Entered

section Knot

variable (scanned : input.Scanned) {cursor : Cursor} (place : input.At cursor)

include scanned

/-- One level less than there are reads the same where one token less is left. -/
theorem within_knot :
    (diagonal scanned).Steps (input.tokens.size - 1) 1 Expression.view
        (Nested.within (input.tokens.size + 1)).expression expression ∧
      (diagonal scanned).Steps (input.tokens.size - 1) 1 Expression.view
        (Nested.within (input.tokens.size + 1)).term term := by
  have limit := Correspondence.Steps.size_lt_nestingLimit input
  have steps := within_steps (input.tokens.size - 1) (input.tokens.size + 1) input.nestingLimit
    (by omega) (by omega) (c := diagonal scanned)
  exact ⟨fun l r along within => steps.1 l r along within, fun l r along within =>
      steps.2 l r along within⟩

include place

/-- A term is read by the rule for terms over expressions and terms. -/
theorem term_eq : term input cursor = termOver expression term input cursor :=
  eq_of_steps scanned Expression.view_full
    (termOver_steps (within_knot scanned).1 (within_knot scanned).2) place (Nat.sub_le _ _)

/-- An expression is read by the rule for expressions over expressions and terms. -/
theorem expression_eq : expression input cursor = expressionOver expression term input cursor := by
  have limit := Correspondence.Steps.size_lt_nestingLimit input
  have terms : (diagonal scanned).Steps input.tokens.size 1 Expression.view
      (Nested.within (input.tokens.size + 2)).term term :=
    fun l r along within => (within_steps _ _ _ (by omega) limit).2 l r along within
  exact eq_of_steps scanned Expression.view_full
    (expressionOver_steps (within_knot scanned).1 terms) place (Nat.sub_le _ _)

end Knot

end Grammar

/-! ## Loops -/

/-- A round of a repetition. -/
def valuesRound (parser : Parser (Option α)) (again : Unit → Parser (List α)) (_ : Unit) :
    Parser (List α) := do
  let before ← cursor
  match ← optional parser with
  | some (some value) =>
    if (← cursor).movedFrom before then
      return value :: (← again ())
    else
      return [value]
  | _ => return []

/-- A round of a sequence. -/
def itemsRound (close : TokenKind) (item : Parser α) (label : String)
    (again : Comments → Parser (List (Commented α))) (before : Comments) :
    Parser (List (Commented α)) := do
  let value ← item
  let after ← whitespace
  if ← peekIs .comma then
    let _ ← token .comma "','"
    let next ← whitespace
    return ⟨before, value, after⟩ :: (← again next)
  else
    let _ ← token close label
    return [⟨before, value, after⟩]

/-- A round of the clauses of a chain. -/
def clausesRound {ω : Type} (term last : Parser α) (operator : Parser ω)
    (again : Unit → Parser (List (Clause ω α))) (_ : Unit) : Parser (List (Clause ω α)) := do
  match ← optional (Grammar.chainStep term last operator) with
  | none => return []
  | some (clause, true) => return [clause]
  | some (clause, false) => return clause :: (← again ())

/-- A round of the constructors of a type. -/
def variantsRound (again : Comments → Parser (List (Commented (Located ConstructorVariant))))
    (before : Comments) : Parser (List (Commented (Located ConstructorVariant))) := do
  let first ← Grammar.variant
  match ← optional Grammar.variantBar with
  | none => return [.pre before first]
  | some after =>
    let next ← whitespace
    return ⟨before, first, after⟩ :: (← again next)

/-- A round of the imports. -/
def importsRound (again : Located Comments →
      Parser (List (Commented (Located Import)) × Located Comments)) (pending : Located Comments) :
    Parser (List (Commented (Located Import)) × Located Comments) := do
  if ← peekSpelled .keyword "import" then
    let declaration ← Grammar.importDeclaration
    let (rest, last) ← again (← located whitespace)
    return (.pre pending.value declaration :: rest, last)
  else
    return ([], pending)

/-- A round of the declarations. -/
def declarationsRound (again : Unit → Parser (List (Located TopLevel))) (_ : Unit) :
    Parser (List (Located TopLevel)) := do
  if (← peek).kind = .eof then
    return []
  else
    let entry ← Grammar.topLevel
    let comments ← located whitespace
    return entry :: (Grammar.commentEntries comments ++ (← again ()))

/-- A loop: what one round hands on to the next, what the loop gives, and one round over those after
it. -/
structure Loop where
  /-- What is handed on. -/
  State : Type
  /-- What is given. -/
  Value : Type
  /-- A round, over what comes to the rest of the loop. -/
  round : (State → Parser Value) → State → Parser Value
  /-- At most so many rounds. -/
  run : Nat → State → Parser Value
  /-- Where a round is left, it is run over one round less. -/
  unrolls : ∀ bound, run (bound + 1) = round (run bound)

namespace Grammar

/-- What the grammar repeats as often as it succeeds. -/
def repeated : List (Σ α : Type, Parser α) :=
  [⟨_, attempt do let _ ← dot; upperName⟩, ⟨_, fieldAccess⟩, ⟨_, token .comma "','"⟩,
    ⟨_, spacedItem patternTerm⟩, ⟨_, spacedItem typeTerm⟩, ⟨_, spacedItem lowerName⟩,
    ⟨_, trackNewline (spacedArgument term)⟩, ⟨_, link (operator "::") (patternOperand patternTerm)⟩,
    ⟨_, link (token .arrow "'->'") (typeOperand typeTerm)⟩, ⟨_, elseIfClause expression⟩,
    ⟨_, branch expression []⟩, ⟨_, letBlock expression⟩]

/-- The loop that repeats a parser as often as it succeeds. -/
def repetitionLoop (parser : Σ α : Type, Parser α) : Loop where
  State := Unit
  Value := List parser.1
  round := valuesRound (some <$> parser.2)
  run := fun bound _ => valuesUpTo (some <$> parser.2) bound
  unrolls := fun _ => rfl

/-- What the grammar reads with commas in between, the closing tokens and what these are called. -/
def listed : List (Σ α : Type, TokenKind × Parser α × String) :=
  [⟨_, .rightBrace, lowerName, "'\x7d'"⟩, ⟨_, .rightParen, pattern, "')'"⟩,
    ⟨_, .rightBracket, pattern, "']'"⟩, ⟨_, .rightParen, typeExpression, "')'"⟩,
    ⟨_, .rightBrace, recordTypeField typeExpression, "'\x7d'"⟩,
    ⟨_, .rightBracket, expression, "']'"⟩, ⟨_, .rightParen, expression, "')'"⟩,
    ⟨_, .rightBrace, recordPair expression, "'\x7d'"⟩, ⟨_, .rightParen, listedName, "')'"⟩]

/-- The loop that reads items up to a closing token. -/
def sequenceLoop (items : Σ α : Type, TokenKind × Parser α × String) : Loop where
  State := Comments
  Value := List (Commented items.1)
  round := itemsRound items.2.1 items.2.2.1 items.2.2.2
  run := itemsUpTo items.2.1 items.2.2.1 items.2.2.2
  unrolls := fun _ => rfl

/-- The loop that reads the clauses of a chain. -/
def clausesLoop : Loop where
  State := Unit
  Value := List (Clause _ _)
  round := clausesRound (application term) (choice (openEnded expression)) infixOperator
  run := fun bound _ =>
    clausesUpTo (application term) (choice (openEnded expression)) infixOperator bound
  unrolls := fun _ => rfl

/-- The loop that reads the constructors of a type. -/
def variantsLoop : Loop where
  State := Comments
  Value := List (Commented (Located ConstructorVariant))
  round := variantsRound
  run := variantsUpTo
  unrolls := fun _ => rfl

/-- The loop that reads the imports. -/
def importsLoop : Loop where
  State := Located Comments
  Value := List (Commented (Located Import)) × Located Comments
  round := importsRound
  run := importsUpTo
  unrolls := fun _ => rfl

/-- The loop that reads the declarations. -/
def declarationsLoop : Loop where
  State := Unit
  Value := List (Located TopLevel)
  round := declarationsRound
  run := fun bound _ => declarationsUpTo bound
  unrolls := fun _ => rfl

/-- The loops of the grammar. -/
def loops : List Loop :=
  repeated.map repetitionLoop ++ listed.map sequenceLoop ++
    [clausesLoop, variantsLoop, importsLoop, declarationsLoop]

end Grammar

/-- A loop goes on at later tokens only: what a round comes to depends on the rounds after it only
by what these come to at tokens after the one at which the round begins, and where these come to an
end there, so does the round. -/
structure Input.GoesOnLater (input : Input) (loop : Loop) : Prop where
  /-- Rounds over what is the same at later tokens are the same. -/
  same : ∀ cursor, input.At cursor → ∀ again again' : loop.State → Parser loop.Value,
    (∀ state later, input.At later → cursor.index < later.index →
      again state input later = again' state input later) →
    ∀ state, loop.round again state input cursor = loop.round again' state input cursor
  /-- A round over what comes to an end at later tokens comes to an end. -/
  ends : ∀ cursor, input.At cursor → ∀ again : loop.State → Parser loop.Value,
    (∀ state later, input.At later → cursor.index < later.index →
      input.Ends cursor.index (again state input later)) →
    ∀ state, input.Ends cursor.index (loop.round again state input cursor)

/-- What a round comes to at a cursor, whatever the rounds after it are: to an end of its own, or to
what the rounds after it come to at a later token, with a changed value. -/
inductive Input.Proceeds {σ β : Type} (input : Input) (start : Nat)
    (round : (σ → Parser β) → Parser β) (cursor : Cursor) : Prop where
  | stops {outcome : Outcome β} (ends : input.Ends start outcome)
      (alone : ∀ again, round again input cursor = outcome)
  | goesOn {state : σ} {later : Cursor} (change : β → β) (place : input.At later)
      (read : start < later.index)
      (hands : ∀ again, round again input cursor =
        (again state >>= fun value => pure (change value)) input later)

section Proceeding

variable {σ : Type} {start least : Nat} {cursor later : Cursor} {parser : Parser α}

/-- A round proceeds as another one does that it comes to. -/
theorem Input.Proceeds.of_eq {round round' : (σ → Parser β) → Parser β}
    (same : ∀ again, round again input cursor = round' again input later)
    (proceeds : input.Proceeds start round' later) : input.Proceeds start round cursor := by
  cases proceeds with
  | stops ends alone => exact .stops ends fun again => (same again).trans (alone again)
  | goesOn change place read hands =>
    exact .goesOn change place read fun again => (same again).trans (hands again)

/-- A round stops where it gives a value. -/
theorem Input.Proceeds.given (place : input.At cursor) (read : start ≤ cursor.index) (value : β) :
    input.Proceeds start (fun _ : σ → Parser β => pure value) cursor :=
  .stops (.done place read) fun _ => rfl

/-- A round that begins with a parser which comes to an end proceeds, if the rest of it does
wherever that parser may come to. -/
theorem Input.Finishes.proceeds {next : (σ → Parser β) → α → Parser β}
    (finishes : input.Finishes least parser) (place : input.At cursor)
    (further : ∀ value later, input.At later → cursor.index + least ≤ later.index →
      input.Proceeds start (fun again => next again value) later) :
    input.Proceeds start (fun again => parser >>= next again) cursor := by
  have ends := finishes cursor place
  cases outcome : parser input cursor with
  | failed failure after =>
    rw [outcome] at ends
    cases ends with
    | rejected place' found =>
      exact .stops (.rejected place' found) fun again => by rw [bind_apply, outcome]
  | done value after =>
    rw [outcome] at ends
    cases ends with
    | done place' read =>
      exact (further value after place' read).of_eq fun again => by rw [bind_apply, outcome]

/-- A round that begins with an optional value proceeds, if the rest of it does without a value and
wherever there may be one. -/
theorem Input.Finishes.optional_proceeds {next : (σ → Parser β) → Option α → Parser β}
    (finishes : input.Finishes least parser) (place : input.At cursor)
    (absent : input.Proceeds start (fun again => next again none) cursor)
    (present : ∀ value later, input.At later → cursor.index + least ≤ later.index →
      input.Proceeds start (fun again => next again (some value)) later) :
    input.Proceeds start (fun again => optional parser >>= next again) cursor := by
  have ends := finishes cursor place
  cases outcome : parser input cursor with
  | done value after =>
    rw [outcome] at ends
    cases ends with
    | done place' read =>
      refine (present value after place' read).of_eq fun again => ?_
      rw [bind_apply, Parser.optional, outcome]
  | failed failure after =>
    rw [outcome] at ends
    cases ends with
    | rejected place' found =>
      by_cases moved : after.movedFrom cursor = true
      · refine .stops (.rejected place' found) fun again => ?_
        rw [bind_apply, Parser.optional, outcome]
        simp only [if_pos moved]
      · refine absent.of_eq fun again => ?_
        rw [bind_apply, Parser.optional, outcome]
        simp only [if_neg moved]

/-- A choice by a test proceeds, if what is chosen does. -/
theorem Input.Proceeds.ite {test : Prop} [Decidable test]
    {passing failing : (σ → Parser β) → Parser β}
    (passed : test → input.Proceeds start passing cursor)
    (failed : ¬test → input.Proceeds start failing cursor) :
    input.Proceeds start (fun again => if test then passing again else failing again) cursor := by
  by_cases holds : test
  · simp only [if_pos holds]
    exact passed holds
  · simp only [if_neg holds]
    exact failed holds

end Proceeding

/-- A loop goes on at later tokens only, if each of its rounds proceeds. -/
theorem Input.GoesOnLater.of_proceeds {loop : Loop}
    (proceeds : ∀ cursor, input.At cursor → ∀ state,
      input.Proceeds cursor.index (fun again => loop.round again state) cursor) :
    input.GoesOnLater loop where
  same := by
    intro cursor place again again' same state
    cases proceeds cursor place state with
    | stops _ alone => exact (alone again).trans (alone again').symm
    | goesOn change place' read hands =>
      rw [hands again, hands again', bind_apply, bind_apply, same _ _ place' read]
  ends := by
    intro cursor place again rest state
    cases proceeds cursor place state with
    | stops ends alone =>
      rw [alone again]
      exact ends
    | @goesOn next later change place' read hands =>
      have ends := rest next later place' read
      rw [hands again, bind_apply]
      generalize again next input later = outcome at ends
      cases ends with
      | done last read' => exact .done last read'
      | rejected last found => exact .rejected last found

/-- What has read so many tokens has read fewer. -/
theorem Input.Ends.mono {least most : Nat} {outcome : Outcome α} (ends : input.Ends most outcome)
    (below : least ≤ most) : input.Ends least outcome := by
  cases ends with
  | done place read => exact .done place (Nat.le_trans below read)
  | rejected place found => exact .rejected place found

/-- A parser with a changed value comes to an end where it does. -/
theorem Input.Finishes.map {least : Nat} {parser : Parser α} (f : α → β)
    (finishes : input.Finishes least parser) : input.Finishes least (f <$> parser) := by
  intro cursor place
  have ends := finishes cursor place
  show input.Ends _ ((parser >>= fun value => pure (f value)) input cursor)
  rw [bind_apply]
  cases outcome : parser input cursor <;> rw [outcome] at ends <;> cases ends
  · exact .done ‹_› ‹_›
  · exact .rejected ‹_› ‹_›

/-! ## Rounds -/

/-- Telling the cursor comes to an end. -/
theorem cursor_finishes : input.Finishes 0 cursor := fun _ place => .done place (Nat.le_refl _)

/-- A repetition goes on at later tokens only, if it repeats what reads a token. -/
theorem repetitionLoop_goesOnLater {parser : Σ α : Type, Parser α}
    (finishes : input.Finishes 1 parser.2) :
    input.GoesOnLater (Grammar.repetitionLoop parser) := by
  refine .of_proceeds fun cursor place _ => ?_
  refine cursor_finishes.proceeds place fun before _ place read => ?_
  refine (finishes.map some).optional_proceeds place (.given place (by omega) [])
    fun value later place' read' => ?_
  cases value with
  | none => exact .given place' (by omega) []
  | some value =>
    refine cursor_finishes.proceeds place' fun after later₂ place₂ read₂ => ?_
    exact .ite (fun _ => .goesOn _ place₂ (by omega) fun _ => rfl) fun _ =>
      .given place₂ (by omega) [value]

/-- Looking at the next token comes to an end. -/
theorem peek_finishes : input.Finishes 0 peek := by
  intro cursor place
  have ⟨before, next, after, stands⟩ := place
  rw [peek_apply, stands.tokenAt?]
  exact .done place (Nat.le_refl _)

/-- No list is closed by the end of the source. -/
theorem Grammar.listed_closed : ∀ items ∈ listed, items.2.1 ≠ .eof := by
  simp [listed]

section Finishing

variable (scanned : input.Scanned)

include scanned

/-- Passing over blanks and comments comes to an end. -/
theorem whitespace_finishes : input.Finishes 0 whitespace := .of_steps scanned fun _ => .whitespace

/-- Passing over blanks and comments of a place comes to an end. -/
theorem locatedWhitespace_finishes : input.Finishes 0 (located whitespace) :=
  .of_steps scanned fun _ => Correspondence.Steps.whitespace.located

/-- Reading a comma comes to an end. -/
theorem comma_finishes (label : String) : input.Finishes 1 (token .comma label) :=
  .of_steps scanned fun _ => .token (by decide) _

/-- What is repeated comes to an end and reads a token. -/
theorem Grammar.repeated_finishes : ∀ parser ∈ repeated, input.Finishes 1 parser.2 := by
  simp only [repeated, List.forall_mem_cons, List.not_mem_nil, false_imp_iff,
    implies_true, and_true]
  refine ⟨?_, ?_, ?_, ?_, ?_, ?_, ?_, ?_, ?_, ?_, ?_, ?_⟩
  · exact .of_steps scanned fun _ => dottedUpperName_steps
  · exact .of_steps scanned fun _ => fieldAccess_steps
  · exact comma_finishes scanned _
  · exact .of_steps scanned fun _ => spacedItem_steps patternTerm_steps
  · exact .of_steps scanned fun _ => spacedItem_steps typeTerm_steps
  · exact .of_steps scanned fun _ => spacedItem_steps lowerName_steps
  · exact .of_steps scanned fun _ => (spacedArgument_steps term_steps).trackNewline
  · exact .of_steps scanned fun _ =>
      link_steps (.operator "::") (patternOperand_steps patternTerm_steps)
  · exact .of_steps scanned fun _ =>
      link_steps (.token (by decide) _) (typeOperand_steps typeTerm_steps)
  · exact .of_steps scanned fun n => elseIfClause_steps (n := n + 1) expression_steps
  · exact .of_steps scanned fun n => branch_steps (n := n + 1) expression_steps rfl
  · exact .of_steps scanned fun _ => letBlock_steps expression_steps

/-- What stands between commas comes to an end. -/
theorem Grammar.listed_finishes : ∀ items ∈ listed, input.Finishes 1 items.2.2.1 := by
  simp only [listed, List.forall_mem_cons, List.not_mem_nil, false_imp_iff, implies_true, and_true]
  refine ⟨?_, ?_, ?_, ?_, ?_, ?_, ?_, ?_, ?_⟩
  · exact .of_steps scanned fun _ => lowerName_steps
  · exact .of_steps scanned fun _ => pattern_steps
  · exact .of_steps scanned fun _ => pattern_steps
  · exact .of_steps scanned fun _ => typeExpression_steps
  · exact .of_steps scanned fun n => recordTypeField_steps (n := n + 1) typeExpression_steps
  · exact .of_steps scanned fun _ => expression_steps
  · exact .of_steps scanned fun _ => expression_steps
  · exact .of_steps scanned fun n => recordPair_steps (n := n + 1) expression_steps
  · exact .of_steps scanned fun _ => listedName_steps

/-- A sequence goes on at later tokens only. -/
theorem sequenceLoop_goesOnLater {items : Σ α : Type, TokenKind × Parser α × String}
    (closed : items.2.1 ≠ .eof) (finishes : input.Finishes 1 items.2.2.1) :
    input.GoesOnLater (Grammar.sequenceLoop items) := by
  have blanks : input.Finishes 0 whitespace := whitespace_finishes scanned
  have test : input.Finishes 0 (peekIs .comma) := .of_steps scanned fun _ => .peekIs rfl
  have comma : input.Finishes 1 (token .comma "','") := comma_finishes scanned _
  have close : input.Finishes 1 (token items.2.1 items.2.2.2) :=
    .of_steps scanned fun _ => .token closed _
  refine .of_proceeds fun cursor place before => ?_
  refine finishes.proceeds place fun value later place' read => ?_
  refine blanks.proceeds place' fun after later₂ place₂ read₂ => ?_
  refine test.proceeds place₂ fun goesOn later₃ place₃ read₃ => ?_
  cases goesOn with
  | false =>
    exact close.proceeds place₃ fun _ later₄ place₄ read₄ => .given place₄ (by omega) _
  | true =>
    refine comma.proceeds place₃ fun _ later₄ place₄ read₄ => ?_
    refine blanks.proceeds place₄ fun next later₅ place₅ read₅ => ?_
    exact .goesOn _ place₅ (by omega) fun _ => rfl

/-- The clauses of a chain go on at later tokens only. -/
theorem clausesLoop_goesOnLater : input.GoesOnLater Grammar.clausesLoop := by
  have step : input.Finishes 1 (Grammar.chainStep (Grammar.application Grammar.term)
      (choice (Grammar.openEnded Grammar.expression)) Grammar.infixOperator) :=
    .of_steps scanned fun _ => Grammar.chainStep_steps Grammar.infixOperator_steps
      (Grammar.application_steps Grammar.term_steps)
      (.choice (Grammar.openEnded_steps Grammar.expression_steps))
  refine .of_proceeds fun cursor place _ => ?_
  refine step.optional_proceeds place (.given place (Nat.le_refl _) [])
    fun (clause, final) later place' read => ?_
  cases final with
  | true => exact .given place' (by omega) [clause]
  | false => exact .goesOn _ place' read fun _ => rfl

/-- The constructors of a type go on at later tokens only. -/
theorem variantsLoop_goesOnLater : input.GoesOnLater Grammar.variantsLoop := by
  have variant : input.Finishes 1 Grammar.variant :=
    .of_steps scanned fun _ => Grammar.variant_steps
  have bar : input.Finishes 1 Grammar.variantBar :=
    .of_steps scanned fun _ => Grammar.variantBar_steps
  have blanks : input.Finishes 0 whitespace := whitespace_finishes scanned
  refine .of_proceeds fun cursor place before => ?_
  refine variant.proceeds place fun first later place' read => ?_
  refine bar.optional_proceeds place' (.given place' (by omega) _)
    fun after later₂ place₂ read₂ => ?_
  refine blanks.proceeds place₂ fun next later₃ place₃ read₃ => ?_
  exact .goesOn _ place₃ (by omega) fun _ => rfl

/-- Imports go on at later tokens only. -/
theorem importsLoop_goesOnLater : input.GoesOnLater Grammar.importsLoop := by
  have test : input.Finishes 0 (peekSpelled .keyword "import") :=
    .of_steps scanned fun _ => .peekSpelled rfl _
  have declaration : input.Finishes 1 Grammar.importDeclaration :=
    .of_steps scanned fun _ => Grammar.importDeclaration_steps
  have blanks : input.Finishes 0 (located whitespace) := locatedWhitespace_finishes scanned
  refine .of_proceeds fun cursor place pending => ?_
  refine test.proceeds place fun isImport later place' read => ?_
  cases isImport with
  | false => exact .given place' (by omega) ([], pending)
  | true =>
    refine declaration.proceeds place' fun _ later₂ place₂ read₂ => ?_
    refine blanks.proceeds place₂ fun next later₃ place₃ read₃ => ?_
    exact .goesOn _ place₃ (by omega) fun _ => rfl

/-- Declarations go on at later tokens only. -/
theorem declarationsLoop_goesOnLater : input.GoesOnLater Grammar.declarationsLoop := by
  have entry : input.Finishes 1 Grammar.topLevel :=
    .of_steps scanned fun _ => Grammar.topLevel_steps
  have blanks : input.Finishes 0 (located whitespace) := locatedWhitespace_finishes scanned
  refine .of_proceeds fun cursor place _ => ?_
  refine peek_finishes.proceeds place fun next later place' read => ?_
  refine .ite (fun _ => .given place' (by omega) []) fun _ => ?_
  refine entry.proceeds place' fun _ later₂ place₂ read₂ => ?_
  refine blanks.proceeds place₂ fun _ later₃ place₃ read₃ => ?_
  exact .goesOn _ place₃ (by omega) fun _ => rfl

/-- Every loop of the grammar goes on at later tokens only. -/
theorem loops_goOnLater : ∀ loop ∈ Grammar.loops, input.GoesOnLater loop := by
  simp only [Grammar.loops, List.forall_mem_append, List.forall_mem_map, List.forall_mem_cons,
    List.not_mem_nil, false_imp_iff, implies_true, and_true]
  refine ⟨⟨fun parser member => ?_, fun items member => ?_⟩, ?_⟩
  · exact repetitionLoop_goesOnLater (Grammar.repeated_finishes scanned parser member)
  · exact sequenceLoop_goesOnLater scanned (Grammar.listed_closed items member)
      (Grammar.listed_finishes scanned items member)
  · exact ⟨clausesLoop_goesOnLater scanned, variantsLoop_goesOnLater scanned,
      importsLoop_goesOnLater scanned, declarationsLoop_goesOnLater scanned⟩

end Finishing

/-- With more rounds left than tokens, a loop that goes on at later tokens only comes to an end. -/
theorem Input.GoesOnLater.run_ends {loop : Loop} (goesOn : input.GoesOnLater loop) :
    ∀ bound cursor, input.At cursor → input.tokens.size - cursor.index < bound →
      ∀ state, input.Ends cursor.index (loop.run bound state input cursor) := by
  intro bound
  induction bound with
  | zero =>
    intro cursor place enough
    omega
  | succ bound further =>
    intro cursor place enough state
    rw [loop.unrolls]
    have ⟨before, next, after, stands⟩ := place
    have left : cursor.index < input.tokens.size := stands.index_lt
    refine goesOn.ends cursor place _ (fun state later place' read => ?_) state
    exact (further later place' (by omega) state).mono (Nat.le_of_lt read)

/-! ## Sources -/

/-- The reading of a source comes to a tree or to a report about a token. -/
inductive Read : Except SourceError α → Prop where
  | tree (tree : α) : Read (.ok tree)
  | rejected {error : ParseError} (found : ∀ position, error ≠ .noTokens position) :
      Read (.error (.parse error))

/-- All that a run of the grammar on an input can rely on. -/
structure Input.Safe (input : Input) : Prop where
  /-- Whatever a source is read as, the run comes to an end. -/
  whole : input.Finishes 0 Grammar.module ∧ input.Finishes 0 (Grammar.whole Grammar.expression) ∧
    input.Finishes 0 (Grammar.whole Grammar.pattern) ∧
    input.Finishes 0 (Grammar.whole Grammar.typeExpression)
  /-- Every rule that is entered again comes to an end, and reads a token where it succeeds. -/
  rules : (input.Finishes 1 Grammar.expression ∧ input.Finishes 1 Grammar.term) ∧
    (input.Finishes 1 Grammar.pattern ∧ input.Finishes 1 Grammar.patternTerm) ∧
    input.Finishes 1 Grammar.typeExpression ∧ input.Finishes 1 Grammar.typeTerm
  /-- No rule is entered again at the token at which a run of it has begun, or before. -/
  entered : ∀ cursor, input.At cursor → ∀ levels, input.tokens.size < levels → Grammar.WatchedAlike
      Grammar.expressionRules Grammar.expression Grammar.term input levels cursor ∧
      Grammar.WatchedAlike Grammar.patternRules Grammar.pattern Grammar.patternTerm input levels
      cursor ∧ Grammar.WatchedAlike Grammar.typeRules Grammar.typeExpression Grammar.typeTerm
      input levels cursor
  /-- No loop goes on without a token read. -/
  loops : ∀ loop ∈ Grammar.loops, input.GoesOnLater loop
  /-- No loop is run out of rounds, if these are more than the tokens left. -/
  rounds : ∀ loop ∈ Grammar.loops, ∀ cursor, input.At cursor → ∀ bound,
    input.tokens.size - cursor.index < bound →
    ∀ state, input.Ends cursor.index (loop.run bound state input cursor)
  /-- Where a run is, the end of the source is still to be read. -/
  unread : ∀ cursor, input.At cursor → ∃ token ∈ input.tokens.toList.drop cursor.index,
      token.kind = .eof
  /-- There is always a token to look at. -/
  tokens : ∀ index, (input.tokenAt? index).isSome = true
  /-- Every number token stands for a number. -/
  numbers : ∀ token ∈ input.tokens.toList, token.kind = .number →
      (Literal.ofNumber? token.lexeme).isSome = true

/-- Runs on the tokens of a source are safe. -/
theorem Input.Scanned.safe (scanned : input.Scanned) : input.Safe where
  whole := by
    refine ⟨?_, ?_, ?_, ?_⟩
    · exact .of_steps scanned fun _ => Grammar.module_steps
    · exact .of_steps scanned fun _ => Grammar.whole_steps Grammar.expression_steps
    · exact .of_steps scanned fun _ => Grammar.whole_steps Grammar.pattern_steps
    · exact .of_steps scanned fun _ => Grammar.whole_steps Grammar.typeExpression_steps
  rules := by
    refine ⟨⟨?_, ?_⟩, ⟨?_, ?_⟩, ?_, ?_⟩
    · exact .of_steps scanned fun _ => Grammar.expression_steps
    · exact .of_steps scanned fun _ => Grammar.term_steps
    · exact .of_steps scanned fun _ => Grammar.pattern_steps
    · exact .of_steps scanned fun _ => Grammar.patternTerm_steps
    · exact .of_steps scanned fun _ => Grammar.typeExpression_steps
    · exact .of_steps scanned fun _ => Grammar.typeTerm_steps
  entered := fun _ place _ enough =>
    ⟨Grammar.expression_watched scanned enough place, Grammar.pattern_watched scanned enough place,
      Grammar.typeExpression_watched scanned enough place⟩
  loops := loops_goOnLater scanned
  rounds := fun loop member cursor place bound enough =>
    (loops_goOnLater scanned loop member).run_ends bound cursor place enough
  unread := fun _ place => place.unread scanned
  tokens := by
    intro index
    obtain ⟨inner, stop, closed, -⟩ := Scan.Divides.closed scanned
    have last : input.tokens.back?.isSome = true := by
      rw [← Array.getLast?_toList, closed, List.getLast?_concat]
      rfl
    rw [Input.tokenAt?]
    cases input.tokens[index]? <;> simp [last]
  numbers := by
    intro token member number
    have shape := Scan.Divides.shape scanned token member
    rw [number] at shape
    obtain ⟨value, spelled⟩ := Literal.ofNumber?_of_shape shape
    rw [spelled]
    rfl

/-- A parser that comes to an end reads every source to an end. -/
theorem Parser.read_of_finishes {parser : Parser α} {source : Text}
    (made : Input.ofSource? source = .ok input) (start : input.At .start)
    (finishes : input.Finishes 0 parser) : Read (parser.run source) := by
  have ends := finishes .start start
  rw [run, made]
  dsimp only
  generalize parser input .start = outcome at ends
  cases ends with
  | done => exact .tree _
  | rejected _ found => exact .rejected found

/-- Reading comes to an end. Every source is faulty in its tokens, and then this is what is reported
whatever it is read as, or it is read to a tree or to a report about a token as a module, as an
expression, as a pattern and as a type; and then no rule is entered again and no loop goes on
without a token read, no loop is run out of rounds, the end of the source is never read, there is
always a token to look at, and every number token stands for a number. -/
theorem reading_ends (source : Text) :
    (∃ error, Token.scan source = .error error ∧ Module.parse source = .error (.scan error) ∧
      Expression.parse source = .error (.scan error) ∧ Pattern.parse source = .error (.scan error) ∧
      TypeExpression.parse source = .error (.scan error)) ∨
    ∃ input, Input.ofSource? source = .ok input ∧ input.Safe ∧ Read (Module.parse source) ∧
      Read (Expression.parse source) ∧ Read (Pattern.parse source) ∧
      Read (TypeExpression.parse source) := by
  cases scan : Token.scan source with
  | error error =>
    have made : Input.ofSource? source = .error error := by rw [Input.ofSource?, scan]; rfl
    refine .inl ⟨error, rfl, ?_, ?_, ?_, ?_⟩ <;> simp only [Module.parse, Expression.parse,
      Pattern.parse, TypeExpression.parse, Parser.run, made]
  | ok tokens =>
    let input : Input := ⟨tokens.toArray, source⟩
    have made : Input.ofSource? source = .ok input := Input.ofSource?_eq_ok.mpr ⟨rfl, scan⟩
    have scanned : input.Scanned := .of_scan rfl scan
    have safe := scanned.safe
    obtain ⟨asModule, asExpression, asPattern, asType⟩ := safe.whole
    have start := scanned.at_start
    exact .inr ⟨input, made, safe, Parser.read_of_finishes made start asModule,
      Parser.read_of_finishes made start asExpression, Parser.read_of_finishes made start asPattern,
      Parser.read_of_finishes made start asType⟩

end Marginalia
