import Marginalia.Proofs.Writing.Chain
import Marginalia.Proofs.Writing.OpenEnded

/-!
# Every tree in normal form is read back

Expressions and terms are read back by induction over the levels of nesting, and from this a whole
source is. Main statement: an expression in normal form, written on one line, is read as that
expression, up to spans.
-/

namespace Marginalia

open Marginalia.Parser Marginalia.Grammar

open Piece (Apart joinFirst written Writable)

variable {input : Input}

/-! ## Levels of nesting -/

/-- The parsers of one level read back what has fewer pieces than the bound, and an operator with a
blank behind it is no term. -/
structure Grammar.Nested.Recovers (input : Input) (nested : Nested) (bound : Nat) : Prop where
  /-- Expressions are read back. -/
  expression : RecoversExpressions input nested.expression bound
  /-- Terms are read back. -/
  term : RecoversTerms input nested.term bound

/-- A level further out reads back expressions of one piece more. -/
theorem Grammar.Nested.Recovers.outer {nested : Nested} {bound : Nat}
    (recovers : nested.Recovers input bound) : nested.outer.Recovers input (bound + 1) := by
  have term : RecoversTerms input (termOver nested.expression nested.term) (bound + 1) :=
    termOver_recovers recovers.expression recovers.term
  refine ⟨⟨fun e normal small rest follows => Leads.expecting ?_, fun positive before avoids => ?_⟩,
    term⟩
  · by_cases isOpenEnded : e.node.isOpenEnded = true
    · exact openEnded_leads recovers.expression follows normal isOpenEnded small _
    · have notOpenEnded : e.node.isOpenEnded = false := Bool.eq_false_iff.mpr isOpenEnded
      have positive : 0 < bound := by
        have some := List.length_pos_iff.mpr normal.opening.solid
        omega
      have noOperator : ∀ symbol more, Apart more → Refuses input
            (termOver nested.expression nested.term) (joinFirst (.operator symbol :: more)) :=
        fun symbol more apart => termOver_refuses_operator recovers.term positive symbol apart
      have ends : ∀ f : Expression, f.Normal → f.node.isOpenEnded = true →
          f.pieces.length < bound + 1 → Leads input (choice (openEnded nested.expression))
          (joinFirst (f.pieces ++ rest)) rest fun found =>
            found.view .placeless = f.view .placeless :=
        fun f normal isOpenEnded small =>
          openEnded_leads recovers.expression follows normal isOpenEnded small []
      have begins : Avoids Piece.opensOpenEnded (joinFirst (e.pieces ++ rest)) := by
        obtain ⟨-, first, more, same, opens⟩ := normal.writable.operand notOpenEnded
        rw [same]
        refine .first ?_ _
        obtain ⟨joined, kind, lexeme⟩ := first
        cases kind <;> first | rfl | cases opens
      refine Leads.choice_behind (openEnded_refuses begins) fun _ => Leads.choice_here ?_
      exact chainExpression_leads term noOperator follows ends normal notOpenEnded small
  · have noTerm : Avoids Piece.opensTerm before :=
      avoids.imp fun piece lacks => (Bool.or_eq_false_iff.mp lacks).1
    have noOpenEnded : Avoids Piece.opensOpenEnded before :=
      avoids.imp fun piece lacks => (Bool.or_eq_false_iff.mp lacks).2
    have chain : Refuses input (chainExpression (termOver nested.expression nested.term)
          (choice (openEnded nested.expression))) before :=
      chainExpression_refuses (termOver_refuses noTerm)
    refine Refuses.expecting (Refuses.choice
        (List.forall_mem_append.mpr ⟨openEnded_refuses noOpenEnded, ?_⟩))
    exact List.forall_mem_singleton.mpr chain

/-- With so many levels expressions of fewer pieces are read back. -/
theorem Grammar.Nested.within_recovers (levels : Nat) :
    (Nested.within levels).Recovers input levels := by
  induction levels with
  | zero =>
    exact ⟨⟨fun _ _ short => absurd short (Nat.not_lt_zero _), fun positive =>
        absurd positive (Nat.lt_irrefl 0)⟩, ⟨fun _ _ short => absurd short (Nat.not_lt_zero _),
      fun positive => absurd positive (Nat.lt_irrefl 0)⟩⟩
  | succ levels ih => exact ih.outer

/-- Expressions are read back. -/
theorem expression_recovers : RecoversExpressions input expression input.nestingLimit :=
  (Nested.within_recovers input.nestingLimit).expression.congr rfl

/-! ## Whole sources -/

/-- Where no pieces are left the source ends. -/
theorem eof_tells : Tells input eof [] () := by
  intro start ahead
  have ends : Tells input (peekIs .eof) [] true := by
    intro start ahead
    rw [peekIs, peekThat_apply, ahead.tokenAt?]
    simp [Piece.next, StartsAt]
  rw [eof_eq, bind_apply, ends start ahead]
  rfl

/-- What a parser reads of all pieces it reads as a whole source. -/
theorem whole_leads {α : Type} {parser : Parser α} {pieces : List Piece} {described : α → Prop}
    (leads : Leads input parser (joinFirst pieces) [] described) :
    Leads input (whole parser) (joinFirst pieces) [] fun found => ∃ value, found = .alone value ∧
      described value := by
  refine whitespace_tells.leads ?_
  apply (Leads.flush leads).withReference.bind
  intro value fits
  apply whitespace_leads.bind
  rintro _ rfl
  exact eof_tells.leads (.pure ⟨value, rfl, fits⟩)

/-- Pieces that can be written are written on one line. -/
theorem Piece.Writable.oneLine {pieces : List Piece} (writable : Writable pieces) :
    (written pieces).hasNewline = false := by
  have none : Text.newline ∉ written pieces := by
    intro isBreak
    obtain ⟨piece, member, inPiece⟩ := List.mem_flatMap.mp isBreak
    have outside := (writable.sound piece member).oneLine
    rw [text] at inPiece
    split at inPiece
    · exact outside inPiece
    · cases inPiece with
      | tail _ inLexeme => exact outside inLexeme
  simpa [Text.hasNewline] using none

/-- At the start of the source that pieces are written to they lie ahead. -/
theorem Piece.Writable.ahead {pieces : List Piece} (writable : Writable pieces) :
    Input.Ahead ⟨(tokens .start pieces).toArray, written pieces⟩ .start pieces :=
  ⟨rfl, writable.sound, Nat.le_refl _, writable.oneLine⟩

/-- A parser that leads over all pieces reads the source that they are written to. -/
theorem Parser.run_written {α : Type} {parser : Parser α} {pieces : List Piece}
    {described : α → Prop} (writable : Writable pieces)
    (leads : ∀ input, Leads input parser pieces [] described) :
    ∃ value, parser.run (written pieces) = .ok value ∧ described value := by
  have scan : Token.scan (written pieces) = .ok (Piece.tokens .start pieces) :=
    (Scan.scan_eq_ok_iff _ _).mpr (writable.divides .start)
  have made : Input.ofSource? (written pieces) =
        .ok ⟨(Piece.tokens .start pieces).toArray, written pieces⟩ :=
    Input.ofSource?_eq_ok.mpr ⟨rfl, scan⟩
  obtain ⟨value, stop, run, -, fits⟩ := leads _ .start writable.ahead
  refine ⟨value, ?_, fits⟩
  rw [Parser.run, made]
  simp only [run]

/-- An expression on one line: its pieces, with single blanks between those that the grammar does
not join. -/
def Expression.written (expression : Expression) : Text :=
  Piece.written (joinFirst expression.pieces)

/-- An expression in normal form, written on one line, is read as that expression, up to spans. -/
theorem parse_written {e : Expression} (normal : e.Normal) :
    ∃ found, Expression.parse e.written = .ok (.alone found) ∧
      found.view .placeless = e.view .placeless := by
  have writable : Writable (joinFirst e.pieces) := normal.opening.phrase.writable.joinFirst
  have leads : ∀ input, Leads input (whole expression) (joinFirst e.pieces) [] fun found =>
      ∃ value, found = .alone value ∧ value.view .placeless = e.view .placeless := by
    intro input
    have atEnd : Follows Piece.closesExpression [] := by simp [Follows]
    have read := (@expression_recovers input).anywhere normal atEnd
    rw [List.append_nil] at read
    exact whole_leads read
  obtain ⟨_, parsed, found, rfl, same⟩ := Parser.run_written writable leads
  exact ⟨found, parsed, same⟩

namespace Expression

/-- A form of an expression at no place in particular. -/
def placed (node : ExpressionNode Expression) : Expression := ⟨⟨.start, .start⟩, node⟩

/-- An unqualified name of a value at no place in particular. -/
def named (n : Text) : Expression := placed (.reference (.value ⟨[], n⟩))

/-- A function whose body has a minus sign before an argument and another one between two
operands. -/
def difference : Expression :=
  placed (.lambda [.alone ⟨⟨.start, .start⟩, .name "p"⟩] []
      (placed (.chain (placed (.application (named "f")
      [.alone (placed (.negation (placed (.access (named "p") "x"))))] (.joinFirst .joinAll)))
      [.plain (⟨⟨.start, .start⟩, "-"⟩, placed (.literal (.integer 1 .decimal)))] .joinAll)) false)

/-- The function is in normal form. -/
theorem difference_normal : difference.Normal := by
  have isName : ∀ n ∈ [Text.ofString "f", Text.ofString "p", Text.ofString "x"],
        IsLexeme .lowerIdentifier n := by
    intro n member
    simp only [List.mem_cons, List.not_mem_nil, or_false] at member
    rcases member with rfl | rfl | rfl <;> exact .of_fronts ⟨_, _, rfl, rfl, rfl⟩
  have minus : IsLexeme .operator (Text.ofString "-") := .of_fronts ⟨_, _, rfl, rfl, rfl⟩
  have name : ∀ n ∈ [Text.ofString "f", Text.ofString "p", Text.ofString "x"], (named n).Normal :=
    fun n member => .reference ⟨by simp, isName n member⟩ ⟨nofun, nofun⟩
  have parameter : Pattern.Normal ⟨⟨.start, .start⟩, .name "p"⟩ :=
    .name (isName _ (by simp)) (by decide)
  have field : (placed (.access (named "p") "x")).Normal :=
    .access (name _ (by simp)) rfl (isName _ (by simp))
  have argument : (placed (.negation (placed (.access (named "p") "x")))).Normal :=
    .negation field rfl
  have call : (placed (.application (named "f") [.alone
        (placed (.negation (placed (.access (named "p") "x"))))] (.joinFirst .joinAll))).Normal :=
    @Normal.application _ (named "f") [_] (by simpa using ⟨name _ (by simp), argument⟩)
      (by simp [placed, named]; decide) (by simp)
  have one : (placed (.literal (.integer 1 .decimal))).Normal :=
    .literal (show (0 : Int) ≤ 1 by decide)
  have body := @Normal.chain ⟨.start, .start⟩ _ [] (⟨⟨.start, .start⟩, "-"⟩, placed (.literal
      (.integer 1 .decimal))) call rfl (by simpa using minus) (by simpa using one) (by simp) rfl
  exact @Normal.lambda _ [_] _ (by simpa using parameter) (by simp; rfl) (by simp) body

end Expression

/-- The function is written with blanks on both sides of the operator and none behind the sign, and
is read back. -/
theorem difference_read_back : Expression.difference.written = "\\ p -> f -p.x - 1" ∧
    ∃ found, Expression.parse Expression.difference.written = .ok (.alone found) ∧
      found.view .placeless = Expression.difference.view .placeless := by
  refine ⟨?_, parse_written Expression.difference_normal⟩
  decide +kernel

end Marginalia
