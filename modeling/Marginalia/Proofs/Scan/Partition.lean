import Marginalia.Proofs.Parser.Place
import Marginalia.Proofs.Scan.Extent
import Mathlib.Data.List.Induction

/-!
# Tokens partition the source

The tokens of a source stand one behind the other, each over its own lexeme, and nothing but blanks
stands before, between and behind them. What a span tells of lines and columns is what counting in
the source gives.
-/

namespace Marginalia

/-! ## Places told by counting -/

/-- The place at an offset of a source, counted: one more than the line breaks before it, and one
more than the code units since the last of these. -/
def Position.ofOffset (source : Text) (offset : Nat) : Position :=
  ⟨offset, 1 + (source.take offset).count Text.newline,
    1 + ((source.take offset).reverse.takeWhile (· != Text.newline)).length⟩

/-- The position is the place at its offset, within the source. -/
structure Position.Counted (source : Text) (position : Position) : Prop where
  /-- The position is not past the source. -/
  inside : position.offset ≤ source.length
  /-- Line and column are those that counting gives. -/
  place : position = .ofOffset source position.offset

/-- Advancing over a text from the start leads to the place behind it. -/
theorem Position.advance_start (before after : Text) :
    start.advance before = .ofOffset (before ++ after) before.length := by
  rw [ofOffset, List.take_left]
  induction before using List.reverseRecOn with
  | nil => rfl
  | append_singleton before u ih =>
    rw [advance_append, ih]
    show step _ u = _
    by_cases isBreak : u = Text.newline
    · subst isBreak
      simp only [step, ↓reduceIte, List.length_append, List.length_singleton, List.count_append,
        List.count_singleton_self, List.reverse_append, List.reverse_singleton,
        List.singleton_append, List.takeWhile_cons, bne_self_eq_false, Bool.false_eq_true,
        List.length_nil]
      congr 1
    · have counted : (u != Text.newline) = true := bne_iff_ne.mpr isBreak
      have other : List.count Text.newline [u] = 0 :=
        List.count_eq_zero.mpr (by simpa using Ne.symm isBreak)
      simp only [step, if_neg isBreak, List.length_append, List.count_append, other,
        List.reverse_append, List.reverse_singleton, List.singleton_append, List.takeWhile_cons,
        counted, ↓reduceIte, List.length_cons, Nat.add_zero]
      congr 1

/-- Where advancing over the front of a source leads is counted. -/
theorem Position.counted_advance (before after : Text) :
    (start.advance before).Counted (before ++ after) := by
  have offset : (start.advance before).offset = before.length := by
    rw [offset_advance]
    exact Nat.zero_add _
  refine ⟨?_, ?_⟩
  · rw [offset, List.length_append]
    exact Nat.le_add_right _ _
  · rw [offset]
    exact advance_start before after

/-! ## The partition -/

/-- Where the next of the tokens starts, or else the source ends. -/
def startBefore (source : Text) : List Token → Nat
  | [] => source.length
  | token :: _ => token.span.start.offset

/-- The tokens partition the source. -/
structure Partitions (source : Text) (tokens : List Token) : Prop where
  /-- The spans stand one behind the other. -/
  apart : tokens.Pairwise fun first second => first.span.stop.offset ≤ second.span.start.offset
  /-- Only the last token is the end of the source, and it stands there; all others are not empty
  and stand over their lexemes. -/
  closed : ∃ inner, tokens = inner ++
      [⟨.eof, [], ⟨.ofOffset source source.length, .ofOffset source source.length⟩⟩] ∧
      ∀ token ∈ inner, token.kind ≠ .eof ∧ token.span.start.offset < token.span.stop.offset ∧
      token.lexeme = source.slice token.span.start.offset token.span.stop.offset
  /-- Before, between and behind the tokens stand blanks only. -/
  gaps : ∀ before after, tokens = before ++ after →
      ∀ u ∈ source.slice (stopAfter .start before).offset (startBefore source after),
      u ∈ Text.ofString " \t\n\r"
  /-- Spans begin and end at counted places. -/
  places : ∀ token ∈ tokens, token.span.start.Counted source ∧ token.span.stop.Counted source

/-- Tokens that follow one another stand apart. -/
theorem Ordered.pairwise {position : Position} {tokens : List Token}
    (ordered : Ordered position tokens) :
    tokens.Pairwise fun first second => first.span.stop.offset ≤ second.span.start.offset := by
  induction ordered with
  | nil => exact .nil
  | cons _ _ _ further ih => exact List.pairwise_cons.mpr ⟨further.start_le, ih⟩

/-- The blanks are the four units that may stand between tokens. -/
theorem Scan.isBlank_iff (u : CodeUnit) : isBlank u = true ↔ u ∈ Text.ofString " \t\n\r" := by
  have units : Text.ofString " \t\n\r" =
        [.ofChar ' ', .ofChar '\t', Text.newline, Text.carriageReturn] := rfl
  simp [units, isBlank, or_assoc]

namespace Scan.Divides

variable {position : Position} {text : Text} {found : List Token}

/-- The tokens of what is left of a source begin and end at counted places. -/
theorem places (divides : Divides position text found) :
    ∀ before : Text, position = Position.start.advance before → ∀ token ∈ found,
      token.span.start.Counted (before ++ text) ∧ token.span.stop.Counted (before ++ text) := by
  induction divides with
  | done position =>
    rintro before rfl token member
    obtain rfl := List.mem_singleton.mp member
    exact ⟨Position.counted_advance before [], Position.counted_advance before []⟩
  | @blank position u rest tokens _ _ ih =>
    rintro before rfl
    have joined :
        (Position.start.advance before).step u = Position.start.advance (before ++ [u]) := by
      rw [Position.advance_append]
      rfl
    have further := ih (before ++ [u]) joined
    rwa [List.append_assoc, List.singleton_append] at further
  | @token position u tail rest kind tokens _ _ _ ih =>
    rintro before rfl
    have joined := (Position.advance_append Position.start before (u :: tail)).symm
    have further := ih (before ++ (u :: tail)) joined
    have stop := Position.counted_advance (before ++ (u :: tail)) rest
    rw [← joined] at stop
    rw [List.append_assoc] at further stop
    exact List.forall_mem_cons.mpr ⟨⟨Position.counted_advance before _, stop⟩, further⟩

/-- Before, between and behind the tokens of what is left of a source stand blanks only. -/
theorem gaps (divides : Divides position text found) :
    ∀ before : Text, position.offset = before.length → ∀ first second, found = first ++ second →
      ∀ u ∈ (before ++ text).slice (stopAfter position first).offset
      (startBefore (before ++ text) second), isBlank u = true := by
  induction divides with
  | done position =>
    intro before offset first second split u member
    have empty : startBefore (before ++ []) second ≤ (stopAfter position first).offset := by
      cases first with
      | nil =>
        obtain rfl : _ = second := split
        exact Nat.le_refl _
      | cons token others =>
        obtain ⟨rfl, rest⟩ := List.cons.inj split
        obtain ⟨rfl, rfl⟩ := List.append_eq_nil_iff.mp rest.symm
        simp [startBefore, stopAfter, offset]
    rw [Text.slice_of_le _ empty] at member
    cases member
  | @blank position u rest tokens blank further ih =>
    intro before offset first second split
    have next := position.offset_step u
    have inner := ih (before ++ [u]) (by rw [next, List.length_append, offset]; rfl)
      first second split
    rw [List.append_assoc, List.singleton_append] at inner
    cases first with
    | cons token others => exact inner
    | nil =>
      obtain rfl : tokens = second := split
      have later : position.offset + 1 ≤ startBefore (before ++ u :: rest) tokens := by
        cases further.ordered with
        | nil =>
          obtain ⟨inner, stop, closed, -⟩ := further.closed
          simp at closed
        | cons gap _ _ _ => exact next ▸ gap
      intro v member
      have one : (before ++ u :: rest).slice position.offset (position.offset + 1) = [u] := by
        rw [offset]
        exact Text.slice_part before [u] rest
      rw [stopAfter, ← Text.slice_append_slice _ (Nat.le_add_right position.offset 1) later,
        one] at member
      rcases List.mem_append.mp member with here | behind
      · rwa [List.mem_singleton.mp here]
      · rw [← next] at behind
        exact inner v behind
  | @token position u tail rest kind tokens _ _ _ ih =>
    intro before offset first second split
    cases first with
    | nil =>
      obtain rfl : _ = second := split
      intro v member
      have empty := (before ++ ((u :: tail) ++ rest)).slice_of_le (Nat.le_refl position.offset)
      exact absurd (empty ▸ member) List.not_mem_nil
    | cons token others =>
      obtain ⟨rfl, rest⟩ := List.cons.inj split
      have stop := position.offset_advance (u :: tail)
      have inner := ih (before ++ (u :: tail)) (by rw [stop, List.length_append, offset])
        others second rest
      rw [List.append_assoc] at inner
      exact inner

/-- The last of the tokens of a text is where the text ends. -/
theorem closes (divides : Divides position text found) :
    ∃ inner, found = inner ++ [⟨.eof, [], ⟨position.advance text, position.advance text⟩⟩] ∧
      ∀ token ∈ inner, token.kind ≠ .eof ∧ token.span.start.offset < token.span.stop.offset := by
  induction divides with
  | done position => exact ⟨[], rfl, List.forall_mem_nil _⟩
  | blank _ _ ih => exact ih
  | @token position u tail rest kind tokens solid read further ih =>
    obtain ⟨inner, rfl, others⟩ := ih
    have shape := (Divides.token solid read further).shape _ (.head _)
    have stop := position.offset_advance (u :: tail)
    rw [List.length_cons] at stop
    refine ⟨_ :: inner, ?_, List.forall_mem_cons.mpr ⟨⟨Shape.ne_eof shape, ?_⟩, others⟩⟩
    · rw [List.cons_append, ← Position.advance_append]
      rfl
    · show position.offset < (position.advance (u :: tail)).offset
      omega

end Scan.Divides

/-- The tokens that a source is scanned into partition it: they stand one behind the other, each but
the last is not empty and stands over its lexeme, only blanks stand outside of them, the last one
and no other is the end of the source, and every span tells the lines and columns that counting
gives. -/
theorem scan_partitions (source : Text) (tokens : List Token)
    (scan : Token.scan source = .ok tokens) : Partitions source tokens := by
  have divides := (Scan.scan_eq_ok_iff source tokens).mp scan
  refine ⟨divides.ordered.pairwise, ?_, ?_, divides.places [] rfl⟩
  · obtain ⟨inner, closed, others⟩ := divides.closes
    have whole := Position.advance_start source []
    rw [List.append_nil] at whole
    rw [whole] at closed
    refine ⟨inner, closed, fun token member =>
        ⟨(others token member).1, (others token member).2, ?_⟩⟩
    have inside : token ∈ tokens := closed ▸ List.mem_append_left _ member
    exact (divides.stretches [] rfl token inside).1.symm
  · intro before after split u member
    exact (Scan.isBlank_iff u).mp (divides.gaps [] rfl before after split u member)

/-- A source with a comment, a string over two lines and blanks of all four sorts is partitioned. -/
theorem spaced_source_partitions :
    ∃ tokens, Token.scan "\t\x7b- a\n -\x7d\r\n x=\"\"\"b\nc\"\"\" --d\r " = .ok tokens ∧
      Partitions "\t\x7b- a\n -\x7d\r\n x=\"\"\"b\nc\"\"\" --d\r " tokens := by
  obtain ⟨tokens, scan⟩ := ok_of_isOk (show (Token.scan
      "\t\x7b- a\n -\x7d\r\n x=\"\"\"b\nc\"\"\" --d\r ").isOk = true by decide +kernel)
  exact ⟨tokens, scan, scan_partitions _ tokens scan⟩

end Marginalia
