import Marginalia.Proofs.Parser.Run

/-!
# Parsers that refuse what is at a cursor

A parser refuses what is at a cursor if this does not match and the cursor stays where it is. A
choice goes on behind the alternatives that refuse, so it reads what the first one does that
succeeds behind them.
-/

namespace Marginalia

open Marginalia.Parser

variable {α β : Type} {input : Input} {start stop : Cursor} {parser : Parser α}

/-- A cursor has not moved from itself. -/
theorem Cursor.not_movedFrom (cursor : Cursor) : cursor.movedFrom cursor = false := by
  simp [Cursor.movedFrom]

namespace Parser

/-- What is at the cursor does not match, and the parser consumes nothing of it. -/
def RefusesAt (input : Input) (start : Cursor) (parser : Parser α) : Prop :=
  ∃ error, parser input start = .failed (.rejected error) start

/-- A token that cannot be read is refused. -/
theorem satisfy_refusesAt {property : Token → Bool} {token : Token}
    (found : input.tokenAt? start.index = some token) (unreadable : ¬ Readable property token start)
    (label : String) : RefusesAt input start (satisfy property label) := by
  refine ⟨.unexpected [label] token, ?_⟩
  rw [satisfy_apply, found]
  exact if_neg unreadable

/-- Telling a mismatch refuses the next token. -/
theorem fail_refusesAt {token : Token} (found : input.tokenAt? start.index = some token)
    (expected : List String) : RefusesAt input start (fail expected : Parser α) := by
  refine ⟨.unexpected expected.eraseDups token, ?_⟩
  rw [fail_apply, found]

/-- An attempt refuses what its parser fails on. -/
theorem attempt_refusesAt {error : ParseError}
    (run : parser input start = .failed (.rejected error) stop) :
    RefusesAt input start (attempt parser) := by
  refine ⟨error, ?_⟩
  rw [attempt, run]

namespace RefusesAt

/-- A sequence refuses what its first parser refuses. -/
theorem bind {next : α → Parser β} (refuses : RefusesAt input start parser) :
    RefusesAt input start (parser >>= next) := by
  obtain ⟨error, run⟩ := refuses
  refine ⟨error, ?_⟩
  rw [bind_apply, run]

/-- An attempt refuses what its parser refuses. -/
theorem attempt (refuses : RefusesAt input start parser) :
    RefusesAt input start (attempt parser) := by
  obtain ⟨error, run⟩ := refuses
  exact attempt_refusesAt run

/-- A located value is refused where the value is. -/
theorem located (refuses : RefusesAt input start parser) :
    RefusesAt input start (located parser) := by
  obtain ⟨error, run⟩ := refuses
  refine ⟨error, ?_⟩
  simp only [Parser.located, bind_apply, position, run]

/-- What is refused is refused with its line break. -/
theorem trackNewline (refuses : RefusesAt input start parser) :
    RefusesAt input start (trackNewline parser) := by
  obtain ⟨error, run⟩ := refuses
  refine ⟨error, ?_⟩
  rw [Parser.trackNewline, run]

end RefusesAt

section Choice

variable {name : Option String} {expected : List String} {first others : List (Parser α)}

/-- Behind an alternative that refuses, a choice goes on with the others. -/
theorem choiceAfter_later (refuses : RefusesAt input start parser) :
    ∃ expected', ∀ name others, choiceAfter name expected (parser :: others) input start =
      choiceAfter name expected' others input start := by
  obtain ⟨error, run⟩ := refuses
  refine ⟨expected ++ error.expected, fun name others => ?_⟩
  simp only [choiceAfter, run, start.not_movedFrom, Bool.false_eq_true, if_false]

/-- A choice refuses what all alternatives refuse. -/
theorem choiceAfter_refusesAt {token : Token} (found : input.tokenAt? start.index = some token)
    (refuses : ∀ alternative ∈ first, RefusesAt input start alternative) :
    RefusesAt input start (choiceAfter name expected first) := by
  induction first generalizing expected with
  | nil => exact fail_refusesAt found _
  | cons alternative more ih =>
    obtain ⟨here, further⟩ := List.forall_mem_cons.mp refuses
    obtain ⟨expected', same⟩ := choiceAfter_later here
    obtain ⟨error, run⟩ := ih further
    exact ⟨error, (same _ _).trans run⟩

/-- A choice reads what an alternative does behind others that refuse. -/
theorem choiceAfter_behind {value : α}
    (refuses : ∀ alternative ∈ first, RefusesAt input start alternative)
    (run : parser input start = .done value stop) :
    choiceAfter name expected (first ++ parser :: others) input start = .done value stop := by
  induction first generalizing expected with
  | nil =>
    rw [List.nil_append]
    simp only [choiceAfter, run]
  | cons alternative more ih =>
    obtain ⟨here, further⟩ := List.forall_mem_cons.mp refuses
    obtain ⟨expected', same⟩ := choiceAfter_later here
    exact (same _ _).trans (ih further)

end Choice

end Parser

end Marginalia
