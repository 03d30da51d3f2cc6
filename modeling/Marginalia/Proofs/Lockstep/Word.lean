import Marginalia.Grammar.Joined
import Marginalia.Grammar.Word
import Marginalia.Proofs.Lockstep.Sequence
import Marginalia.Proofs.Scan.Numeral

/-!
# Words in lockstep

The smallest rules of the grammar run in lockstep on corresponding inputs: names, operators and
literals, arguments past the reference of indentation, and operands joined by a connective.
-/

namespace Marginalia.Grammar

open Marginalia.Parser

variable {left right : Input} {c : Correspondence left right} {n d : Nat} {α γ : Type}

/-! ## Names -/

/-- Lists of values that are seen as they are and seen alike are the same. -/
theorem eq_of_map_plain {found found' : List α}
    (same : c.Same (fun view => List.map (View.plain view)) found found') : found = found' := by
  simpa using same

/-- A lower-case name runs in lockstep. -/
theorem lowerName_steps : c.Steps n 1 View.plain lowerName lowerName :=
  .andThen (.token (by decide) _) fun _ _ same => .pure (Token.eq_of_view same).2

/-- An upper-case name runs in lockstep. -/
theorem upperName_steps : c.Steps n 1 View.plain upperName upperName :=
  .andThen (.token (by decide) _) fun _ _ same => .pure (Token.eq_of_view same).2

/-- The symbol of an operator runs in lockstep. -/
theorem operatorSymbol_steps : c.Steps n 1 View.plain operatorSymbol operatorSymbol :=
  .andThen (.token (by decide) _) fun _ _ same => .pure (Token.eq_of_view same).2

/-- An operator between two operands runs in lockstep. -/
theorem infixOperator_steps : c.Steps n 1 View.plain infixOperator infixOperator :=
  .andThen operatorSymbol_steps fun _ _ same => .pure (congrArg Reference.operator same)

/-- An operator in parentheses runs in lockstep. -/
theorem parenthesizedOperator_steps :
    c.Steps n 1 View.plain parenthesizedOperator parenthesizedOperator := by
  refine .andThen (.token (by decide) _) fun _ _ _ => ?_
  refine .weaken (.andThen operatorSymbol_steps fun symbol symbol' same => ?_)
  exact .weaken (.andThen (.token (by decide) _) fun _ _ _ => .pure same)

/-- A dot runs in lockstep. -/
theorem dot_steps : c.Steps n 1 Token.view dot dot := .token (by decide) _

/-- A further name after a dot runs in lockstep. -/
theorem dottedUpperName_steps :
    c.Steps n 1 View.plain (attempt do let _ ← dot; upperName)
      (attempt do let _ ← dot; upperName) :=
  .attempt (.andThen dot_steps fun _ _ _ => upperName_steps.weaken)

/-- Further names after dots run in lockstep. -/
theorem dottedUpperNames_steps : c.Steps n 0 View.plain dottedUpperNames dottedUpperNames :=
  dottedUpperName_steps.many.imp fun _ _ same => eq_of_map_plain same

/-- A name after a dot runs in lockstep. -/
theorem dottedLowerName_steps : c.Steps n 1 View.plain dottedLowerName dottedLowerName :=
  .attempt (.andThen dot_steps fun _ _ _ => lowerName_steps.weaken)

/-- A qualified name runs in lockstep. -/
theorem qualifiedUpperName_steps :
    c.Steps n 1 View.plain qualifiedUpperName qualifiedUpperName := by
  refine .andThen upperName_steps fun first first' sameFirst => ?_
  refine .bind dottedUpperNames_steps fun rest rest' sameRest => ?_
  exact .pure (congrArg₂ QualifiedName.ofParts sameFirst sameRest)

/-- A name of a value or of a constructor runs in lockstep. -/
theorem nameReference_steps : c.Steps n 1 View.plain nameReference nameReference := by
  refine .ifThen (.peekIs rfl) ?_ (.ifThen (.peekIs rfl) ?_ (.fail _))
  · refine .andThen lowerName_steps fun name name' same => ?_
    obtain rfl := same.eq
    exact .pure rfl
  · refine .andThen upperName_steps fun first first' sameFirst => ?_
    refine .bind dottedUpperNames_steps fun rest rest' sameRest => ?_
    obtain rfl := sameFirst.eq
    obtain rfl := sameRest.eq
    refine .bind dottedLowerName_steps.optional fun name name' sameName => ?_
    match name, name', sameName with
    | none, none, _ => exact .pure rfl
    | some name, some name', sameName =>
      obtain rfl : name = name' := Option.some.inj sameName
      exact .pure rfl

/-! ## Literals -/

/-- A literal runs in lockstep: a number token of a source always stands for a number. -/
theorem literal_steps : c.Steps n 1 View.plain literal literal := by
  intro l r along within
  have reads : c.Steps n 1 Token.view (satisfy (fun token => token.kind == .number || token.kind ==
        .string || token.kind == .char) "a literal") (satisfy (fun token =>
        token.kind == .number || token.kind == .string || token.kind == .char) "a literal") := by
    refine .satisfy (fun t t' sameKind _ => ?_) (fun t isLiteral ends => ?_) _
    · rw [sameKind]
    · rw [ends] at isLiteral
      cases isLiteral
  refine (reads l r along within).withRun.bind ?_
  rintro t l' t' r' ⟨⟨same, along', index, offset⟩, run, -⟩
  obtain ⟨found, ⟨-, -, isLiteral⟩, -⟩ := satisfy_done run
  obtain ⟨sameKind, sameLexeme⟩ := Token.eq_of_view same
  simp only [Bool.or_eq_true, beq_iff_eq] at isLiteral
  rw [← sameKind, ← sameLexeme]
  rcases isLiteral with (number | string) | char
  · have shape := c.scannedLeft.shape found
    rw [number] at shape
    obtain ⟨value, spelled⟩ := Literal.ofNumber?_of_shape shape
    simp only [number, spelled]
    exact .done ⟨rfl, along', index, offset⟩
  · simp only [string]
    exact .done ⟨rfl, along', index, offset⟩
  · simp only [char]
    exact .done ⟨rfl, along', index, offset⟩

/-! ## Arguments -/

variable {seen : View → α → γ} {p q : Parser α}

/-- An argument runs in lockstep if its item does. -/
theorem spacedItem_steps (item : c.Steps n d seen p q) :
    c.Steps n d (fun view => Commented.view view (seen view)) (spacedItem p) (spacedItem q) := by
  refine .attempt (.bind .whitespace fun comments comments' sameComments =>
      .bind .indented fun _ _ _ => ?_)
  exact .andThen item fun _ _ same => .pure (Correspondence.Same.pre c sameComments same)

/-- Arguments run in lockstep if their item does. -/
theorem spaced_steps (item : c.Steps n d seen p q) :
    c.Steps n 0 (fun view => List.map (Commented.view view (seen view))) (spaced p) (spaced q) :=
  .many (spacedItem_steps item)

/-- The next token is an operator that begins with a minus sign. -/
def isMinus (token : Token) : Bool :=
  token.kind == .operator && token.lexeme.head? == some (.ofChar '-')

/-- An argument, with the test for a minus sign as one test of the next token. -/
theorem spacedArgument_eq (item : Parser α) :
    spacedArgument item = attempt (position >>= fun start => whitespace >>= fun comments =>
      position >>= fun stop =>
      peekThat isMinus >>= fun minus =>
        if stop.offset == start.offset && minus then fail ["whitespace"]
        else indented >>= fun _ => item >>= fun value => pure (.pre comments value)) := by
  funext input cursor
  simp only [spacedArgument, attempt, bind_apply, position]
  cases whitespace input cursor with
  | failed failure after => rfl
  | done comments after =>
    simp only [peekIs, peekThat_apply, peek_apply]
    cases found : input.tokenAt? after.index with
    | none => rfl
    | some next =>
      have test : ((after.position.offset == cursor.position.offset) &&
            (decide (StartsAt next after) && next.kind == .operator) && next.lexeme.head? ==
            some (CodeUnit.ofChar '-')) = ((after.position.offset == cursor.position.offset) &&
            (decide (StartsAt next after) && isMinus next)) := by
        rw [isMinus, Bool.and_assoc, Bool.and_assoc]
      simp only [found, test]

/-- An argument that is no operand of a minus sign runs in lockstep if its item does. -/
theorem spacedArgument_steps (item : c.Steps n d seen p q) :
    c.Steps n d (fun view => Commented.view view (seen view)) (spacedArgument p)
      (spacedArgument q) := by
  rw [spacedArgument_eq, spacedArgument_eq]
  refine .attempt ?_
  intro l r along within
  -- Only what blanks and comments consumed decides, and both runs consumed something there or none
  -- did.
  show c.Meets _ ((whitespace >>= _) left l) ((whitespace >>= _) right r)
  refine (Correspondence.Steps.whitespace l r along within).bind ?_
  rintro comments l' comments' r' ⟨sameComments, along', index, offset⟩
  have sameOffset :
      (l'.position.offset == l.position.offset) = (r'.position.offset == r.position.offset) := by
    rw [Bool.eq_iff_iff, beq_iff_eq, beq_iff_eq, c.offset along along']
  have rest : c.Steps n d (fun view => Commented.view view (seen view))
      (peekThat isMinus >>= fun minus =>
        if l'.position.offset == l.position.offset && minus then fail ["whitespace"]
        else indented >>= fun _ => p >>= fun value => pure (.pre comments value))
      (peekThat isMinus >>= fun minus =>
        if r'.position.offset == r.position.offset && minus then fail ["whitespace"]
        else indented >>= fun _ => q >>= fun value => pure (.pre comments' value)) := by
    refine .bind (.peekThat (fun t t' sameKind sameLexeme => ?_) fun t minus => ?_)
      fun minus minus' same => ?_
    · rw [isMinus, isMinus, sameKind, sameLexeme]
    · rw [Token.isComment, beq_iff_eq.mp (Bool.and_eq_true_iff.mp minus).1]
      rfl
    · obtain rfl := same.eq
      rw [sameOffset]
      split
      · exact .fail _
      · refine .bind .indented fun _ _ _ => ?_
        exact .andThen item fun _ _ same => .pure (Correspondence.Same.pre c sameComments same)
  refine (rest l' r' along' (by omega)).imp ?_
  rintro a l₂ b r₂ ⟨same, along₂, index₂, offset₂⟩
  exact ⟨same, along₂, by omega, by omega⟩

/-! ## Operands joined by a connective -/

/-- What is seen of a further operand of a chain. -/
def Link.view (view : View) (inner : α → γ) (link : Link α) : Link γ :=
  ⟨view.comments link.before, view.comments link.after, inner link.operand⟩

/-- What is seen of the operands of a chain. -/
def operandsView (view : View) (inner : α → γ) (operands : Commented α × List (Commented α)) :
    Commented γ × List (Commented γ) :=
  (operands.1.view view inner, operands.2.map (Commented.view view inner))

/-- The operands of links that are seen are the operands that are seen. -/
theorem operandsView_operands (view : View) (inner : α → γ) (before : Comments) (current : α)
    (links : List (Link α)) :
    operandsView view inner (Link.operands before current links) = Link.operands
      (view.comments before) (inner current) (links.map (Link.view view inner)) := by
  induction links generalizing before current with
  | nil => simp [operandsView, Link.operands, Commented.pre]
  | cons next rest ih =>
    have further := ih next.after next.operand
    simp only [operandsView] at further
    simp only [operandsView, Link.operands, List.map_cons, Link.view, ← further, Commented.view]

/-- A connective with the operand after it runs in lockstep if both do. -/
theorem link_steps {connective : Parser Token}
    (connects : c.Steps n 1 Token.view connective connective) (operand : c.Steps n d seen p q) :
    c.Steps n 1 (fun view => Link.view view (seen view)) (link connective p)
      (link connective q) := by
  refine .attempt (.bind .whitespace fun before before' sameBefore =>
      .andThen connects fun _ _ _ => ?_)
  refine .bind .whitespace fun after after' sameAfter =>
    .bind operand.weaken fun a b same => .pure ?_
  simp [Link.view, sameBefore, sameAfter, same]

/-- Operands joined by a connective run in lockstep if connectives and operands do. -/
theorem joined_steps {connective : Parser Token}
    (connects : c.Steps n 1 Token.view connective connective) (operand : c.Steps n d seen p q) :
    c.Steps n d (fun view => operandsView view (seen view)) (joined connective p)
      (joined connective q) := by
  have links := link_steps connects operand
  refine .andThen operand fun first first' sameFirst =>
    .bind links.many fun found found' sameFound => .pure ?_
  simp only [Correspondence.Same, operandsView_operands, View.comments_nil] at sameFound ⊢
  rw [sameFirst, sameFound]

end Marginalia.Grammar
