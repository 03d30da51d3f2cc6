import Marginalia.Proofs.Concatenation.Sequel
import Marginalia.Proofs.Concatenation.Settling
import Marginalia.Proofs.Totality

/-!
# How a source ends

The declarations of a source end with a token that waits for nothing, unless one of them declares a
fixity. So in a source that is read to its end, whatever waits is followed by something, which is
what `Closes` asks of the shorter input of a sequel.
-/

namespace Marginalia

open Marginalia.Parser

variable {α : Type} {input : Input} {start middle stop : Cursor}

/-! ## What was read last -/

/-- What a run read last waits for nothing, or it read nothing, or it read a word that declares a
fixity. -/
def Input.Concludes (input : Input) (start stop : Cursor) : Prop :=
  input.Settled stop.index ∨ input.readBefore stop.index = input.readBefore start.index ∨
    ∃ index token, start.index ≤ index ∧ index < stop.index ∧ input.tokens[index]? = some token ∧
    token.DeclaresFixity

/-- One run concludes behind another one. -/
theorem Input.Concludes.trans (earlier : input.Concludes start middle)
    (later : input.Concludes middle stop) (forward : start.index ≤ middle.index)
    (onward : middle.index ≤ stop.index) : input.Concludes start stop := by
  rcases later with settled | same | ⟨index, token, lower, upper, fixity⟩
  · exact .inl settled
  · rcases earlier with settled | nothing | ⟨index, token, lower, upper, fixity⟩
    · refine .inl ?_
      rw [Input.Settled, same]
      exact settled
    · exact .inr (.inl (same.trans nothing))
    · exact .inr (.inr ⟨index, token, lower, by omega, fixity⟩)
  · exact .inr (.inr ⟨index, token, by omega, upper, fixity⟩)

/-- What settles concludes. -/
theorem Parser.Settles.concludes {certain : Bool} {parser : Parser α}
    (settles : Settles certain parser) (scanned : input.Scanned) {value : α}
    (run : parser input start = .done value stop) : input.Concludes start stop :=
  (settles.settles scanned run).imp id fun same => .inl same.2

/-- A run that succeeds leaves a cursor at a token, so many tokens further at least. -/
theorem Input.Finishes.done {least : Nat} {parser : Parser α} {value : α}
    (finishes : input.Finishes least parser) (place : input.At start)
    (run : parser input start = .done value stop) :
    input.At stop ∧ start.index + least ≤ stop.index := by
  have ends := finishes start place
  rw [run] at ends
  cases ends with
  | done place read => exact ⟨place, read⟩

namespace Grammar

/-- The declaration of a fixity begins with a word that says so. -/
theorem fixityDeclaration_concludes (scanned : input.Scanned) (place : input.At start)
    {value : FixityDeclaration} (run : fixityDeclaration input start = .done value stop) :
    input.Concludes start stop := by
  have further := (Input.Finishes.of_steps scanned fun _ => fixityDeclaration_steps).done place run
  obtain ⟨word, _, read, -⟩ := bind_done.mp run
  obtain ⟨found, ⟨-, -, holds⟩, -⟩ := satisfy_done read
  obtain ⟨kind, declares⟩ := Bool.and_eq_true_iff.mp holds
  obtain ⟨_, next, _, stands⟩ := place
  obtain rfl := Option.some.inj (stands.tokenAt?.symm.trans found)
  have here : input.tokens[start.index]? = some next := by
    rw [← Array.getElem?_toList, stands.tokens, stands.index]
    simp
  exact .inr (.inr ⟨start.index, next, Nat.le_refl _, further.2, here,
    beq_iff_eq.mp kind, declares⟩)

/-- A declaration at the top level concludes. -/
theorem topLevel_concludes (scanned : input.Scanned) (place : input.At start)
    {entry : Located TopLevel} (run : topLevel input start = .done entry stop) :
    input.Concludes start stop := by
  obtain ⟨position, _, same, rest⟩ := bind_done.mp run
  obtain ⟨rfl, rfl⟩ := Outcome.done.inj same
  split at rest
  · exact absurd rest (fail_ne_done _ _ _ _ _)
  · obtain ⟨after, inner, rfl⟩ := withReference_done rest
    obtain ⟨parser, member, chosen⟩ := choiceAfter_done (located_done inner).2
    have inside := place.reindent (start.position.column :: start.indentation)
    have concludes : input.Concludes
          { start with indentation := start.position.column :: start.indentation } after := by
      simp only [List.mem_cons, List.not_mem_nil, or_false] at member
      rcases member with rfl | rfl | rfl
      · obtain ⟨_, _, declared, result⟩ := bind_done.mp chosen
        obtain ⟨-, rfl⟩ := Outcome.done.inj result
        exact fixityDeclaration_concludes scanned inside declared
      · exact typeDeclaration_settles.concludes scanned chosen
      · have settles : Settles true (declaration expression >>= fun found =>
              pure (TopLevel.declaration found)) := inferInstance
        exact settles.concludes scanned chosen
    exact concludes

/-- Declarations conclude, at the end of the source. -/
theorem declarationsUpTo_concludes (scanned : input.Scanned) {bound : Nat}
    {entries : List (Located TopLevel)} (place : input.At start)
    (run : declarationsUpTo bound input start = .done entries stop) :
    input.Concludes start stop ∧ start.index ≤ stop.index ∧ input.At stop ∧
    ∃ token, input.tokenAt? stop.index = some token ∧ token.kind = .eof := by
  induction bound generalizing start entries with
  | zero => cases run
  | succ bound ih =>
    obtain ⟨next, here, looked, rest⟩ := bind_done.mp run
    obtain ⟨found, rfl⟩ := peek_done looked
    split at rest
    · rename_i ends
      obtain ⟨-, rfl⟩ := Outcome.done.inj rest
      exact ⟨.inr (.inl rfl), Nat.le_refl _, place, next, found, ends⟩
    · obtain ⟨entry, behind, ranEntry, rest⟩ := bind_done.mp rest
      obtain ⟨comments, after, ranComments, rest⟩ := bind_done.mp rest
      obtain ⟨others, _, ranOthers, made⟩ := bind_done.mp rest
      obtain ⟨-, rfl⟩ := Outcome.done.inj made
      have blanks : Settles false (located whitespace) := inferInstance
      obtain ⟨placeBehind, toBehind⟩ :=
        (Input.Finishes.of_steps scanned fun _ => topLevel_steps).done place ranEntry
      obtain ⟨placeAfter, toAfter⟩ :=
        (locatedWhitespace_finishes scanned).done placeBehind ranComments
      obtain ⟨concludes, onward, atEnd⟩ := ih placeAfter ranOthers
      have first := topLevel_concludes scanned place ranEntry
      have second := first.trans (blanks.concludes scanned ranComments) (by omega) (by omega)
      exact ⟨second.trans concludes (by omega) onward, by omega, atEnd⟩

instance importsUpTo_settles (bound : Nat) (pending : Located Comments) :
    Settles false (importsUpTo bound pending) := by
  induction bound generalizing pending with
  | zero => exact (interrupt_settles _).weaken
  | succ bound ih =>
    have another :
      Settles true (importDeclaration >>= fun declaration => located whitespace >>= fun next =>
        importsUpTo bound next >>= fun found =>
          pure (Commented.pre pending.value declaration :: found.1, found.2)) :=
      inferInstance
    unfold importsUpTo
    refine @bindFirst_settles _ _ _ _ _ _ fun isImport => ?_
    split
    · exact another.weaken
    · infer_instance

/-- Imports lead from a token to a token. -/
theorem importsUpTo_at (scanned : input.Scanned) {bound : Nat} {pending : Located Comments}
    {found : List (Commented (Located Import)) × Located Comments} (place : input.At start)
    (run : importsUpTo bound pending input start = .done found stop) :
    input.At stop ∧ start.index ≤ stop.index := by
  induction bound generalizing start pending found with
  | zero => cases run
  | succ bound ih =>
    obtain ⟨another, here, looked, rest⟩ := bind_done.mp run
    obtain ⟨rfl, -⟩ := peekThat_done looked
    cases another with
    | false =>
      obtain ⟨-, rfl⟩ := Outcome.done.inj rest
      exact ⟨place, Nat.le_refl _⟩
    | true =>
      obtain ⟨declaration, behind, ranImport, rest⟩ := bind_done.mp rest
      obtain ⟨next, after, ranBlanks, rest⟩ := bind_done.mp rest
      obtain ⟨_, _, ranOthers, made⟩ := bind_done.mp rest
      obtain ⟨-, rfl⟩ := Outcome.done.inj made
      obtain ⟨placeBehind, toBehind⟩ :=
        (Input.Finishes.of_steps scanned fun _ => importDeclaration_steps).done place ranImport
      obtain ⟨placeAfter, toAfter⟩ :=
        (locatedWhitespace_finishes scanned).done placeBehind ranBlanks
      obtain ⟨placeStop, toStop⟩ := ih placeAfter ranOthers
      exact ⟨placeStop, by omega⟩

/-- A source that is read as a module concludes. -/
theorem module_concludes (scanned : input.Scanned) {found : Module}
    (run : module input .start = .done found stop) :
    ∃ last, input.Concludes .start last ∧ input.At last ∧
      ∃ token, input.tokenAt? last.index = some token ∧ token.kind = .eof := by
  obtain ⟨initial, first, ranInitial, rest⟩ := bind_done.mp run
  obtain ⟨header, second, ranHeader, rest⟩ := bind_done.mp rest
  obtain ⟨pending, third, ranPending, rest⟩ := bind_done.mp rest
  obtain ⟨imports, fourth, ranImports, rest⟩ := bind_done.mp rest
  obtain ⟨declarations, fifth, ranDeclarations, -⟩ := bind_done.mp rest
  have blanks : Settles false whitespace := inferInstance
  have heading : Settles false (optional moduleHeader) := inferInstance
  have locatedBlanks : Settles false (located whitespace) := inferInstance
  have importing (bound : Nat) (pending : Located Comments) :
      Settles false (importsUpTo bound pending) := inferInstance
  have finishes : input.Finishes 0 (optional moduleHeader) :=
    .of_steps scanned fun _ => moduleHeader_steps.optional
  obtain ⟨placeFirst, toFirst⟩ := (whitespace_finishes scanned).done scanned.at_start ranInitial
  obtain ⟨placeSecond, toSecond⟩ := finishes.done placeFirst ranHeader
  obtain ⟨placeThird, toThird⟩ := (locatedWhitespace_finishes scanned).done placeSecond ranPending
  obtain ⟨placeFourth, toFourth⟩ := importsUpTo_at scanned placeThird ranImports
  obtain ⟨concludes, toFifth, atEnd⟩ :=
    declarationsUpTo_concludes scanned placeFourth ranDeclarations
  have untilSecond := (blanks.concludes scanned ranInitial).trans
    (heading.concludes scanned ranHeader) (by omega) (by omega)
  have untilThird := untilSecond.trans (locatedBlanks.concludes scanned ranPending)
    (by omega) (by omega)
  have untilFourth := untilThird.trans ((importing _ pending).concludes scanned ranImports)
    (by omega) toFourth
  exact ⟨fifth, untilFourth.trans concludes (by omega) toFifth, atEnd⟩

end Grammar

/-! ## What waits is followed by something -/

/-- The longer the front of the tokens is, the more was read. -/
theorem Input.readBefore_length_le (input : Input) {first second : Nat} (le : first ≤ second) :
    (input.readBefore first).length ≤ (input.readBefore second).length := by
  rw [readBefore, readBefore, List.length_reverse, List.length_reverse]
  exact (List.Sublist.filter _ (List.take_sublist_take_left le)).length_le

/-- A token that waits is no comment. -/
theorem Token.solid_of_waits {token : Token} (waits : token.kind.waits = true) :
    token.isComment = false := by
  rw [isComment]
  revert waits
  cases token.kind <;> decide

namespace Sequel

variable {s : Sequel}

/-- If the shorter source concludes at its end, what waits is followed by something or a fixity is
declared. -/
theorem closes_of_concludes (concludes : s.short.Concludes start stop)
    (ends : stop.index = s.count) : s.Closes start.index := by
  rcases concludes with settled | nothing | ⟨index, token, lower, upper, found, fixity⟩
  · refine .inl fun later token lower inside found waits => ?_
    by_contra none
    have comments : ∀ i, later + 1 ≤ i → i < s.count → ∀ token, s.short.tokens[i]? = some token →
          token.isComment = true := by
      intro i lower upper other foundOther
      by_contra solid
      exact none ⟨i, other, lower, upper, foundOther, by simpa using solid⟩
    obtain ⟨last, isLast, rests⟩ := settled
    rw [ends, Input.readBefore_of_comments inside comments,
      Input.readBefore_succ found (Token.solid_of_waits waits)] at isLast
    obtain rfl : token = last := Option.some.inj isLast
    rw [waits] at rests
    cases rests
  · refine .inl fun later token lower inside found waits => ?_
    have longer := congrArg List.length (Input.readBefore_succ found (Token.solid_of_waits waits))
    have first := s.short.readBefore_length_le lower
    have second := s.short.readBefore_length_le (show later + 1 ≤ s.count from inside)
    rw [ends] at nothing
    rw [List.length_cons] at longer
    rw [nothing] at second
    omega
  · exact .inr ⟨index, token, lower, ends ▸ upper, found, fixity⟩

end Sequel

end Marginalia
