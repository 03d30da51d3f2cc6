import Marginalia.Proofs.Parser.Refusal
import Marginalia.Proofs.Parts.Word
import Marginalia.Proofs.Totality

/-!
# Minus signs behind an operand

A minus sign between two operands is read as an operator only where no argument that begins with it
could be read. The same parser reads the term behind it both times, so the argument was refused for
its place alone: the sign stands directly behind the operand before it, or not past the reference of
indentation.
-/

namespace Marginalia

open Marginalia.Parser Marginalia.Grammar

variable {input : Input} {start : Cursor}

/-- Blanks and comments that take up nothing of the source do not move the cursor. -/
theorem whitespace_stays (scanned : input.Scanned) (place : input.At start) {comments : Comments}
    {stop : Cursor} (run : whitespace input start = .done comments stop)
    (same : stop.position.offset = start.position.offset) : stop = start := by
  obtain ⟨before, next, after, stands⟩ := place
  obtain ⟨_, _, _, next', _, again, stands', starts', -⟩ := stands.whitespace scanned
  obtain ⟨-, rfl⟩ := Outcome.done.inj (run.symm.trans again)
  have index : stop.index = start.index :=
    Nat.le_antisymm (stands'.index_le scanned stands same.le)
      (stands.index_le scanned stands' same.ge)
  obtain ⟨-, rfl, -⟩ := stands.unique stands' index.symm
  have starts : StartsAt next start := starts'.trans same
  have position : stop.position = start.position :=
    (stands'.start_eq scanned starts').symm.trans (stands.start_eq scanned starts)
  obtain ⟨_, -, -, stays⟩ := whitespace_done run
  have indentation : stop.indentation = start.indentation := by rw [stays]
  obtain ⟨_, _, _⟩ := stop
  subst index position indentation
  rfl

/-! ## Negations -/

/-- The parser reads a minus sign if it reads what is directly behind the sign. -/
def ReadsNegation (input : Input) (term : Parser Expression) : Prop :=
  ∀ start minus between operand stop, input.At start →
    operator "-" input start = .done minus between → term input between = .done operand stop →
    ∃ value after, term input start = .done value after

/-- A rule for a term that needs another first token refuses a minus sign. -/
theorem refuses_minus {expression : Parser Expression} {minus : Token}
    (found : input.tokenAt? start.index = some minus) (isOperator : minus.kind = .operator) :
    ∀ alternative ∈ [literalTerm, bracketTerm expression, accessorTerm],
      RefusesAt input start alternative := by
  have refuses : ∀ property : Token → Bool, property minus = false → ∀ label,
      RefusesAt input start (satisfy property label) := by
    intro property unlike label
    refine satisfy_refusesAt found ?_ label
    rintro ⟨-, -, holds⟩
    rw [unlike] at holds
    cases holds
  have kinds : ∀ kind, kind ≠ .operator → ∀ label, RefusesAt input start (token kind label) := by
    intro kind other label
    refine refuses _ ?_ label
    simp [isOperator, other.symm]
  simp only [List.forall_mem_cons, List.not_mem_nil, false_imp_iff, implies_true, and_true]
  refine ⟨?_, choiceAfter_refusesAt found ?_, ?_⟩
  · refine .bind (.located (.bind (.bind (refuses _ ?_ _))))
    simp [isOperator]
  · simp only [List.forall_mem_cons, List.not_mem_nil, false_imp_iff, implies_true, and_true]
    refine ⟨?_, .attempt ?_, ?_⟩
    · exact .bind (.located (.bind (kinds _ (by decide) _)))
    · exact .bind (.located (.bind (.trackNewline (.bind (kinds _ (by decide) _)))))
    · exact .bind (.located (.bind (.trackNewline (.bind (kinds _ (by decide) _)))))
  · exact .attempt (.bind (.located (.bind (kinds _ (by decide) _))))

/-- A minus sign and a term directly behind it are a term. -/
theorem Input.Scanned.readsNegation (scanned : input.Scanned) : ReadsNegation input term := by
  intro start minus between operand stop place runMinus runOperand
  obtain ⟨found, ⟨-, -, isMinus⟩, -⟩ := satisfy_done runMinus
  have isOperator : minus.kind = .operator := (isSpelled_iff.mp isMinus).1
  have negation : negationTerm term input start =
      .done ⟨⟨start.position, stop.position⟩, .negation operand⟩ stop := by
    refine attempt_done.mpr (bind_done.mpr ⟨⟨⟨start.position, stop.position⟩, .negation operand⟩,
      stop, ?_, rfl⟩)
    simp only [located, position, bind_apply, runMinus, runOperand, pure_apply]
  have run : choice [literalTerm, bracketTerm expression, accessorTerm, negationTerm term,
      accessible (choice [nameTerm, parensTerm expression, recordTerm expression])] input start =
        .done ⟨⟨start.position, stop.position⟩, .negation operand⟩ stop :=
    choiceAfter_behind (refuses_minus found isOperator) negation
  refine ⟨⟨⟨start.position, stop.position⟩, .negation operand⟩, stop, ?_⟩
  rw [term_eq scanned place, termOver, expecting, run]

/-! ## Operators -/

/-- The cursor is where an operand stops, and no further argument is read there. -/
structure Input.Closes (input : Input) (term : Parser Expression) (operand : Expression)
    (cursor : Cursor) : Prop where
  /-- The operand stops there. -/
  stops : operand.span.stop = cursor.position
  /-- No argument is read there. -/
  refused : ∀ argument after, spacedArgument term input cursor ≠ .done argument after

/-- A minus sign that is read as an operator can be read as one before a term. -/
theorem operator_minus_of_infix {stop : Cursor}
    (run : infixOperator input start = .done (.operator "-") stop) :
    ∃ minus, operator "-" input start = .done minus stop := by
  obtain ⟨_, _, runSymbol, made⟩ := bind_done.mp run
  obtain ⟨same, rfl⟩ := Outcome.done.inj made
  obtain ⟨minus, _, runToken, made⟩ := bind_done.mp runSymbol
  obtain ⟨rfl, rfl⟩ := Outcome.done.inj made
  obtain ⟨found, ⟨starts, solid, isOperator⟩, rfl⟩ := satisfy_done runToken
  have isMinus : minus.lexeme = Text.ofString "-" := Reference.operator.inj same
  refine ⟨minus, ?_⟩
  rw [operator, spelled, satisfy_apply, found]
  exact if_pos ⟨starts, solid, isSpelled_iff.mpr ⟨beq_iff_eq.mp isOperator, isMinus⟩⟩

/-- Where a minus sign is read that no argument begins with, and a term directly behind it, the sign
stands directly behind what is before it or not past the reference. -/
theorem minus_is_close (scanned : input.Scanned) {term : Parser Expression}
    (reads : ReadsNegation input term) {first between last stop : Cursor}
    {blanks blanks' : Comments} {operand : Expression} (place : input.At first)
    (placeBehind : input.At between)
    (refused : ∀ argument after, spacedArgument term input start ≠ .done argument after)
    (before : whitespace input start = .done blanks first)
    (sign : infixOperator input first = .done (.operator "-") between)
    (after : whitespace input between = .done blanks' last)
    (direct : last.position.offset = between.position.offset)
    (run : term input last = .done operand stop) :
    first.position.offset = start.position.offset ∨ first.position.column ≤ start.reference := by
  by_contra neither
  obtain ⟨apart, past⟩ := not_or.mp neither
  obtain rfl := whitespace_stays scanned placeBehind after direct
  obtain ⟨minus, sign⟩ := operator_minus_of_infix sign
  obtain ⟨value, stop', read⟩ := reads first minus last operand stop place sign run
  have found := (satisfy_done sign).1
  obtain ⟨_, -, -, stays⟩ := whitespace_done before
  have reference : first.reference = start.reference := by
    rw [stays]
    rfl
  -- the argument passes both of its tests and is the negation that the term parser reads
  refine refused (.pre blanks value) stop' ?_
  rw [spacedArgument_eq, attempt_done]
  have isApart : (first.position.offset == start.position.offset) = false :=
    beq_eq_false_iff_ne.mpr apart
  have isPast : indented input first = .done () first := by
    rw [indented_apply, reference, if_neg past]
  simp only [position, bind_apply, before, peekThat_apply, found, isApart, Bool.false_and,
    Bool.false_eq_true, if_false, isPast, read, pure_apply]

end Marginalia
