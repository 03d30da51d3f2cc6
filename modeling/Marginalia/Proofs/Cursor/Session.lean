import Marginalia.Script
import Marginalia.Proofs.Cursor.Grammar

/-!
# Cursors along a session

A session runs any scripts one after another, each from the cursor that the one before has left,
also where that one failed. All cursors of a session are coherent: the induction over a script gives
what one step keeps, and the induction over the steps what a session keeps.
-/

namespace Marginalia.Script

open Marginalia.Parser

variable {style : Json.Style} {α : Type}

/-! ## One step -/

instance shown_steady (write : α → Json) (parser : Parser α) [Steady parser] :
    Steady (shown write parser) := by
  unfold shown; infer_instance

/-- Parsers that are run in order are steady if all of them are. -/
instance inOrder_steady (parsers : List (Parser Value)) [all : AllSteady parsers] :
    Steady (inOrder parsers) := by
  obtain ⟨each⟩ := all
  induction parsers with
  | nil => unfold inOrder; infer_instance
  | cons parser rest ih =>
    obtain ⟨first, others⟩ := List.forall_mem_cons.mp each
    have := ih others
    unfold inOrder
    infer_instance

mutual

/-- Whatever a script describes is steady. -/
theorem parser_steady (style : Json.Style) (script : Script) : Steady (parser style script) := by
  cases script with
  | padded inner | trackNewline inner | located inner | withReference inner | attempt inner
  | lookAhead inner | optional inner | many inner | many1 inner | expecting _ inner
  | separated _ _ inner | group _ _ _ inner
  | spaced inner | spacedArgument inner =>
    have := parser_steady style inner
    unfold parser
    infer_instance
  | commitIf check inner =>
    have := parser_steady style inner
    unfold parser
    infer_instance
  | chain operand final connective =>
    have := parser_steady style operand
    have := parser_steady style final
    have := parser_steady style connective
    unfold parser
    infer_instance
  | choice label alternatives =>
    have := parsers_steady style alternatives
    cases label <;> unfold parser <;> infer_instance
  | all scripts =>
    have := parsers_steady style scripts
    unfold parser
    infer_instance
  | peekIs kind lexeme => cases lexeme <;> unfold parser <;> infer_instance
  | _ => unfold parser; infer_instance

/-- Whatever some scripts describe is steady. -/
theorem parsers_steady (style : Json.Style) (scripts : List Script) :
    AllSteady (parsers style scripts) := by
  cases scripts with
  | nil => unfold parsers; infer_instance
  | cons script rest =>
    have := parser_steady style script
    have := parsers_steady style rest
    unfold parsers
    infer_instance

end

/-! ## Runs without a result -/

/-- A run that succeeds without a result has consumed nothing. -/
def Silent (parser : Parser Value) : Prop :=
  ∀ input start stop, parser input start = .done none stop → stop = start

/-- What is shown is a result. -/
theorem shown_silent (write : α → Json) (parser : Parser α) : Silent (shown write parser) := by
  intro input start stop run
  obtain ⟨value, middle, -, result⟩ := bind_done.mp run
  cases result

/-- An optional part is without a result if nothing was read or if what was read has none. -/
theorem optional_silent {parser : Parser Value} (silent : Silent parser) :
    Silent do return (← Parser.optional parser).join := by
  intro input start stop run
  obtain ⟨value, middle, found, result⟩ := bind_done.mp run
  obtain ⟨absent, rfl⟩ := Outcome.done.inj result
  rcases optional_done found with ⟨inner, rfl, ran⟩ | ⟨-, same⟩
  · obtain rfl : inner = none := absent
    exact silent _ _ _ ran
  · exact same

/-- A choice has consumed nothing where it is without a result, if each alternative has. -/
theorem choiceAfter_silent {label : Option String} {expected : List String}
    {alternatives : List (Parser Value)} (each : ∀ alternative ∈ alternatives, Silent alternative) :
    Silent (choiceAfter label expected alternatives) := by
  intro input start stop run
  obtain ⟨alternative, member, ran⟩ := choiceAfter_done run
  exact each alternative member _ _ _ ran

/-- Where no clause follows, nothing was consumed. -/
theorem clausesUpTo_nil {β ω : Type} {term last : Parser β} {operator : Parser ω} {bound : Nat}
    {input : Input} {start stop : Cursor}
    (run : Grammar.clausesUpTo term last operator bound input start = .done [] stop) :
    stop = start := by
  cases bound with
  | zero => cases run
  | succ bound =>
    obtain ⟨found, middle, ran, rest⟩ := bind_done.mp run
    rcases optional_done ran with ⟨clause, rfl, -⟩ | ⟨rfl, rfl⟩
    · obtain ⟨clause, final⟩ := clause
      cases final with
      | true => cases rest
      | false =>
        obtain ⟨others, after, -, result⟩ := bind_done.mp rest
        cases result
    · exact (Outcome.done.inj rest).2.symm

/-- A chain without a result is an operand without one. -/
theorem chain_silent {operand final connective : Parser Value} (silent : Silent operand) :
    Silent do return chainValue style (← Grammar.operatorChain operand final connective) := by
  intro input start stop run
  obtain ⟨chain, middle, found, result⟩ := bind_done.mp run
  obtain ⟨absent, rfl⟩ := Outcome.done.inj result
  obtain ⟨-, inner⟩ := located_done found
  obtain ⟨⟨⟨left, following⟩, crossed⟩, behind, ran, value⟩ := bind_done.mp inner
  obtain ⟨same, rfl⟩ := Outcome.done.inj value
  obtain ⟨parts, -⟩ := trackNewline_done ran
  obtain ⟨first, between, operandRan, rest⟩ := bind_done.mp parts
  obtain ⟨clauses, after, clausesRan, whole⟩ := bind_done.mp rest
  obtain ⟨pair, rfl⟩ := Outcome.done.inj whole
  obtain ⟨rfl, rfl⟩ := Prod.mk.inj pair
  rw [chainValue, ← same] at absent
  cases clauses with
  | nil =>
    obtain rfl : first = none := absent
    obtain rfl := silent _ _ _ operandRan
    exact clausesUpTo_nil clausesRan
  | cons clause others => cases absent

mutual

/-- A script that is run without a result has consumed nothing. -/
theorem parser_silent (style : Json.Style) (script : Script) : Silent (parser style script) := by
  cases script with
  | withReference inner =>
    unfold parser
    intro input start stop run
    obtain ⟨after, ran, rfl⟩ := withReference_done run
    rw [parser_silent style inner _ _ _ ran]
  | attempt inner =>
    unfold parser
    exact fun input start stop run => parser_silent style inner _ _ _ (attempt_done.mp run)
  | lookAhead inner =>
    unfold parser
    exact fun input start stop run => (lookAhead_done run).1
  | optional inner =>
    unfold parser
    exact optional_silent (parser_silent style inner)
  | choice label alternatives =>
    cases label <;> unfold parser <;> exact choiceAfter_silent (parsers_silent style alternatives)
  | expecting label inner =>
    unfold parser
    exact fun input start stop run => parser_silent style inner _ _ _ (expecting_done run)
  | commitIf check inner =>
    unfold parser
    intro input start stop run
    obtain ⟨_, middle, looked, ran⟩ := bind_done.mp run
    obtain ⟨rfl, -⟩ := lookAhead_done looked
    exact parser_silent style inner _ _ _ ran
  | chain operand final connective =>
    unfold parser
    exact chain_silent (parser_silent style operand)
  | result value =>
    unfold parser
    exact fun input start stop run => (Outcome.done.inj run).2.symm
  | mismatch expected =>
    unfold parser
    exact fun input start stop run => absurd run (fail_ne_done _ _ _ _ _)
  | crash message =>
    unfold parser
    exact fun input start stop run => nomatch run
  | many1 inner =>
    unfold parser
    intro input start stop run
    obtain ⟨first, middle, -, rest⟩ := bind_done.mp run
    obtain ⟨others, after, -, result⟩ := bind_done.mp rest
    cases result
  | peekIs kind lexeme => cases lexeme <;> unfold parser <;> exact shown_silent _ _
  | _ =>
    unfold parser
    exact shown_silent _ _

/-- Each of some scripts that is run without a result has consumed nothing. -/
theorem parsers_silent (style : Json.Style) (scripts : List Script) :
    ∀ alternative ∈ parsers style scripts, Silent alternative := by
  cases scripts with
  | nil =>
    unfold parsers
    exact List.forall_mem_nil _
  | cons script rest =>
    unfold parsers
    exact List.forall_mem_cons.mpr ⟨parser_silent style script, parsers_silent style rest⟩

end

/-! ## Sessions -/

/-- A step leads from a coherent cursor to one that follows it. -/
theorem step_follows {input : Input} (scanned : input.Scanned) {cursor : Cursor}
    (coherent : input.Coherent cursor) (script : Script) :
    input.Follows cursor (step style input cursor script).cursor :=
  (parser_steady style script).follows scanned coherent

/-- All cursors along a session follow the ones before them. -/
theorem session_follows {input : Input} (scanned : input.Scanned) {cursor : Cursor}
    (coherent : input.Coherent cursor) (scripts : List Script) :
    (cursor :: (session style input cursor scripts).map (·.cursor)).Pairwise input.Follows := by
  induction scripts generalizing cursor with
  | nil => exact List.pairwise_singleton _ _
  | cons script rest ih =>
    have first : input.Follows cursor (step style input cursor script).cursor :=
      step_follows scanned coherent script
    have further := ih first.coherent
    refine List.pairwise_cons.mpr
      ⟨List.forall_mem_cons.mpr ⟨first, fun later member => ?_⟩, further⟩
    exact first.trans ((List.pairwise_cons.mp further).1 later member)

/-- What a script may not do to the cursor, from wherever it is run. -/
structure Restores (style : Json.Style) (script : Script) : Prop where
  /-- An attempt that is rejected leaves the cursor as it was. -/
  attempt {input : Input} {start stop : Cursor} {error : ParseError}
    (run : parser style (.attempt script) input start = .failed (.rejected error) stop) :
    stop = start
  /-- A lookahead leaves the cursor as it was, whatever it ends in. -/
  lookAhead (input : Input) (start : Cursor) :
    (parser style (.lookAhead script) input start).cursor = start
  /-- An optional part without a result leaves the cursor as it was. -/
  optional {input : Input} {start stop : Cursor}
    (run : parser style (.optional script) input start = .done none stop) : stop = start

/-- Every script restores the cursor where it has to. -/
theorem restores (style : Json.Style) (script : Script) : Restores style script where
  attempt {input start stop error} run := by
    unfold parser Parser.attempt at run
    split at run
    · exact (Outcome.failed.inj run).2.symm
    · rename_i notRejected
      exact absurd run (notRejected _ _)
  lookAhead input start := by
    unfold parser Parser.lookAhead
    split <;> rfl
  optional run := parser_silent style (.optional script) _ _ _ run

/-- The cursor is kept in order by whatever is run. Any scripts may be run one after another on the
tokens of a source, and each may succeed, be rejected or be cut short: at every step the indentation
is what it was, no token and no source is given back, and the source is consumed up to the next
unread token but for blanks. Attempts that are rejected, lookaheads and optional parts without a
result leave the whole cursor as it was, wherever they are run. -/
theorem scripts_keep_cursor (style : Json.Style) {source : Text} {input : Input}
    (made : Input.ofSource? source = .ok input) :
    input.source = source ∧ input.Coherent .start ∧
    (∀ scripts, (Cursor.start :: (session style input .start scripts).map (·.cursor)).Pairwise
      input.Follows) ∧ ∀ script, Restores style script := by
  obtain ⟨same, scan⟩ := Input.ofSource?_eq_ok.mp made
  have scanned : input.Scanned := .of_scan same scan
  have start := scanned.coherent_start
  exact ⟨same, start, session_follows scanned start, restores style⟩

/-- A session in which a tuple is cut short behind a comment and in a block, after an attempt at it
was rejected. -/
theorem tuple_session_keeps_cursor :
    ∃ input, Input.ofSource? "f (x, -- y\n  1)" = .ok input ∧
      (Cursor.start :: (session ⟨fun _ => .null, fun _ => .null, fun _ => .null⟩ input .start
      [.lowerName, .attempt (.all [.whitespace, .patternTerm]), .whitespace, .withReference
      (.group .leftParen .rightParen "')'" (.choice none [.lowerName, .crash "no name"]))]).map
      (·.cursor)).Pairwise input.Follows := by
  obtain ⟨input, made⟩ := ok_of_isOk
    (show (Input.ofSource? "f (x, -- y\n  1)").isOk = true by decide +kernel)
  exact ⟨input, made, (scripts_keep_cursor _ made).2.2.1 _⟩

end Marginalia.Script
