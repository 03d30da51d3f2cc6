import Marginalia.Proofs.Scan.Partition

/-!
# What every parser keeps

A run may succeed, be rejected or be cut short, and the cursor it leaves is used after each of the
three. `Steady` says what holds of that cursor in any case: the indentation is what it was, nothing
is given back, and between the place that the source was consumed to and the next unread token there
are blanks only. The combinators keep it, whatever they are applied to, and it is a class so that
instance search can go along the definition of a parser.
-/

namespace Marginalia

open Marginalia.Parser

/-! ## Coherent cursors -/

/-- The source is consumed up to the next unread token, but for blanks before it. -/
def Input.Coherent (input : Input) (cursor : Cursor) : Prop :=
  ∃ next, input.tokenAt? cursor.index = some next ∧
    cursor.position.offset ≤ next.span.start.offset ∧
    ∀ u ∈ input.source.slice cursor.position.offset next.span.start.offset,
    u ∈ Text.ofString " \t\n\r"

/-- A run may lead from one cursor to another: the indentation is the same, nothing is given back,
and the cursor that is left is coherent. -/
structure Input.Follows (input : Input) (start stop : Cursor) : Prop where
  /-- The indentation is the same. -/
  indentation : stop.indentation = start.indentation
  /-- No token is unread again. -/
  index : start.index ≤ stop.index
  /-- No source is given back. -/
  offset : start.position.offset ≤ stop.position.offset
  /-- The cursor is coherent. -/
  coherent : input.Coherent stop

variable {input : Input}

/-- A cursor follows itself. -/
theorem Input.Coherent.refl {cursor : Cursor} (coherent : input.Coherent cursor) :
    input.Follows cursor cursor :=
  ⟨rfl, Nat.le_refl _, Nat.le_refl _, coherent⟩

/-- What follows a cursor that follows another one follows that one. -/
theorem Input.Follows.trans {first second third : Cursor} (earlier : input.Follows first second)
    (later : input.Follows second third) : input.Follows first third :=
  ⟨later.indentation.trans earlier.indentation, Nat.le_trans earlier.index later.index,
    Nat.le_trans earlier.offset later.offset, later.coherent⟩

namespace Input.Scanned

/-- A token stops no earlier than it starts. -/
theorem start_le_stop (scanned : input.Scanned) {index : Nat} {token : Token}
    (found : input.tokenAt? index = some token) :
    token.span.start.offset ≤ token.span.stop.offset := by
  rw [Scan.Divides.stop_eq scanned token (mem_of_tokenAt? found), Position.offset_advance]
  exact Nat.le_add_right _ _

/-- The end of the source takes up none of it. -/
theorem stop_of_eof (scanned : input.Scanned) {index : Nat} {token : Token}
    (found : input.tokenAt? index = some token) (ends : token.kind = .eof) :
    token.span.stop = token.span.start := by
  have shape := scanned.shape found
  rw [ends] at shape
  have empty : token.lexeme = [] := shape
  rw [Scan.Divides.stop_eq scanned token (mem_of_tokenAt? found), empty]
  rfl

/-- Behind every token stands the next one, with only blanks before it; the end of the source stands
behind itself. -/
theorem tokenAt?_succ (scanned : input.Scanned) {index : Nat} {token : Token}
    (found : input.tokenAt? index = some token) :
    ∃ next, input.tokenAt? (index + 1) = some next ∧
      token.span.stop.offset ≤ next.span.start.offset ∧
      ∀ u ∈ input.source.slice token.span.stop.offset next.span.start.offset,
      u ∈ Text.ofString " \t\n\r" := by
  by_cases inside : index + 1 < input.tokens.size
  · have before : index < input.tokens.size := by omega
    have here : input.tokenAt? index = some input.tokens[index] := by
      rw [tokenAt?, Array.getElem?_eq_getElem before]
      rfl
    obtain rfl := Option.some.inj (here.symm.trans found)
    have split : input.tokens.toList = (input.tokens.toList.take index ++ [input.tokens[index]]) ++
        input.tokens[index + 1] :: input.tokens.toList.drop (index + 2) := by
      rw [List.append_assoc, List.singleton_append, ← Array.getElem_toList before,
        ← Array.getElem_toList inside, ← List.drop_eq_getElem_cons, ← List.drop_eq_getElem_cons,
        List.take_append_drop]
    have stop : stopAfter .start (input.tokens.toList.take index ++ [input.tokens[index]]) =
        input.tokens[index].span.stop := by
      rw [stopAfter_append]
      rfl
    refine ⟨input.tokens[index + 1], ?_, ?_, fun u member => (Scan.isBlank_iff u).mp ?_⟩
    · rw [tokenAt?, Array.getElem?_eq_getElem inside]
      rfl
    · have ordered := Scan.Divides.ordered scanned
      rw [split] at ordered
      have follows := ordered.after.1
      rw [stop] at follows
      exact follows.start_le _ (.head _)
    · have gap := Scan.Divides.gaps scanned [] rfl _ _ split
      rw [stop] at gap
      exact gap u member
  · have last : input.tokenAt? (index + 1) = input.tokenAt? index := by
      rw [tokenAt?, tokenAt?, Array.getElem?_eq_none (i := index + 1) (by omega)]
      by_cases before : index < input.tokens.size
      · obtain rfl : index = input.tokens.size - 1 := by omega
        rw [Array.back?]
        cases input.tokens[input.tokens.size - 1]? <;> rfl
      · rw [Array.getElem?_eq_none (i := index) (by omega)]
    have ends := scanned.eof_of_size_le (last.trans found) (by omega)
    rw [scanned.stop_of_eof found ends]
    exact ⟨token, last.trans found, Nat.le_refl _, by simp [Text.slice_of_le]⟩

/-- Later tokens start no earlier. -/
theorem tokenAt?_of_le (scanned : input.Scanned) {first second : Nat} (le : first ≤ second)
    {token : Token} (found : input.tokenAt? first = some token) :
    ∃ next, input.tokenAt? second = some next ∧
      token.span.start.offset ≤ next.span.start.offset := by
  induction le with
  | refl => exact ⟨token, found, Nat.le_refl _⟩
  | step _ ih =>
    obtain ⟨middle, foundMiddle, le⟩ := ih
    obtain ⟨next, foundNext, gap, -⟩ := scanned.tokenAt?_succ foundMiddle
    exact ⟨next, foundNext, Nat.le_trans le (Nat.le_trans (scanned.start_le_stop foundMiddle) gap)⟩

/-- The cursor before the first token is coherent. -/
theorem coherent_start (scanned : input.Scanned) : input.Coherent .start := by
  obtain ⟨before, next, after, stands⟩ := scanned.at_start
  refine ⟨next, stands.tokenAt?, Nat.zero_le _, fun u member => (Scan.isBlank_iff u).mp ?_⟩
  obtain rfl : before = [] := List.eq_nil_of_length_eq_zero stands.index.symm
  exact Scan.Divides.gaps scanned [] rfl [] (next :: after) stands.tokens u member

/-- Where there is a token to look at, blanks and comments are passed over to the start of the next
unread token. -/
theorem whitespace_apply (scanned : input.Scanned) {cursor : Cursor} {token : Token}
    (found : input.tokenAt? cursor.index = some token) :
    ∃ comments index next, whitespace input cursor =
      .done comments ⟨index, next.span.start, cursor.indentation⟩ ∧ cursor.index ≤ index ∧
      input.tokenAt? index = some next ∧ token.span.start.offset ≤ next.span.start.offset := by
  let index := cursor.index + (input.commentsAt cursor.index).length
  obtain ⟨next, foundNext, le⟩ :=
    scanned.tokenAt?_of_le (show cursor.index ≤ index from Nat.le_add_right _ _) found
  refine ⟨(input.commentsAt cursor.index).map Comment.ofToken, index, next, ?_,
    Nat.le_add_right _ _, foundNext, le⟩
  have same : (input.tokens[index]? <|> input.tokenAt? cursor.index) = some next := by
    cases inside : input.tokens[index]? with
    | some other =>
      rw [Input.tokenAt?, inside] at foundNext
      exact foundNext
    | none =>
      -- Past the last token there are no comments: the last token is the end of the source, which
      -- is none.
      have past : input.tokens.size ≤ index := Array.getElem?_eq_none_iff.mp inside
      have ends := scanned.eof_of_size_le foundNext past
      have none : input.commentsAt cursor.index = [] := by
        by_contra present
        have left := input.drop_eq_commentsAt_append cursor.index
        rw [List.drop_eq_nil_of_le (i := index) (by simpa using past), List.append_nil] at left
        obtain ⟨inner, stop, closed, -⟩ := Scan.Divides.closed scanned
        have last :
            (input.tokens.toList.drop cursor.index).getLast? = some ⟨.eof, [], ⟨stop, stop⟩⟩ := by
          have inside : cursor.index < input.tokens.toList.length := by
            by_contra outside
            rw [List.drop_eq_nil_of_le (by omega)] at left
            exact present left.symm
          rw [List.getLast?_drop, if_neg (by omega), closed, List.getLast?_concat]
        rw [left] at last
        have comment := input.isComment_of_mem_commentsAt _ _ (List.mem_of_getLast? last)
        cases comment
      have stays : index = cursor.index := by simp [index, none]
      rw [stays] at foundNext
      exact foundNext
  simp only [whitespace, same, index]

end Input.Scanned

namespace Parser

variable {α β : Type}

/-! ## Steady parsers -/

/-- Whatever a run ends in, the cursor it leaves follows the one it began from. -/
class Steady (parser : Parser α) : Prop where
  /-- The cursor that is left follows the first one. -/
  follows {input : Input} (scanned : input.Scanned) {start : Cursor}
    (coherent : input.Coherent start) : input.Follows start (parser input start).cursor

/-- The cursor behind a successful run follows the one it began from. -/
theorem Steady.follows_done {parser : Parser α} [steady : Steady parser] (scanned : input.Scanned)
    {start stop : Cursor} {value : α} (coherent : input.Coherent start)
    (run : parser input start = .done value stop) : input.Follows start stop := by
  have follows := steady.follows scanned coherent
  rwa [run] at follows

/-- A run that leaves the cursor as it is. -/
theorem Steady.of_stays {parser : Parser α}
    (stays : ∀ input start, (parser input start).cursor = start) : Steady parser where
  follows scanned start coherent := by
    rw [stays]
    exact coherent.refl

instance pure_steady (value : α) : Steady (pure value : Parser α) := .of_stays fun _ _ => rfl

/-- One steady parser after another. -/
theorem Steady.bind {parser : Parser α} {next : α → Parser β} (first : Steady parser)
    (second : ∀ value, Steady (next value)) : Steady (parser >>= next) where
  follows {input} scanned {start} coherent := by
    have earlier := first.follows scanned coherent
    rw [bind_apply]
    cases run : parser input start with
    | done value middle =>
      rw [run] at earlier
      exact earlier.trans ((second value).follows scanned earlier.coherent)
    | failed failure middle =>
      rw [run] at earlier
      exact earlier

instance bind_steady (parser : Parser α) (next : α → Parser β) [first : Steady parser]
    [second : ∀ value, Steady (next value)] : Steady (parser >>= next) := .bind first second

instance ite_steady (condition : Prop) [Decidable condition] (first second : Parser α)
    [Steady first] [Steady second] : Steady (if condition then first else second) := by
  split <;> infer_instance

instance interrupt_steady (interruption : Interruption) :
    Steady (interrupt interruption : Parser α) :=
  .of_stays fun _ _ => rfl

instance reject_steady (error : ParseError) : Steady (reject error : Parser α) :=
  .of_stays fun _ _ => rfl

instance cursor_steady : Steady cursor := .of_stays fun _ _ => rfl

instance position_steady : Steady position := .of_stays fun _ _ => rfl

instance peek_steady : Steady peek := .of_stays fun input start => by
  rw [peek_apply]
  split <;> rfl

instance isAdjacent_steady : Steady isAdjacent := by unfold isAdjacent; infer_instance

instance peekThat_steady (property : Token → Bool) : Steady (peekThat property) := by
  unfold peekThat; infer_instance

instance peekIs_steady (kind : TokenKind) : Steady (peekIs kind) := by unfold peekIs; infer_instance

instance peekSpelled_steady (kind : TokenKind) (lexeme : Text) :
    Steady (peekSpelled kind lexeme) := by
  unfold peekSpelled; infer_instance

instance fail_steady (expected : List String) : Steady (fail expected : Parser α) := by
  unfold fail
  infer_instance

/-! ## Reading -/

instance satisfy_steady (property : Token → Bool) (label : String) :
    Steady (satisfy property label) where
  follows {input} scanned {start} coherent := by
    rw [satisfy_apply]
    obtain ⟨token, found, -, -⟩ := id coherent
    rw [found]
    dsimp only
    split
    · rename_i readable
      obtain ⟨next, foundNext, gap, blanks⟩ := scanned.tokenAt?_succ found
      have le : start.position.offset ≤ token.span.stop.offset :=
        readable.1 ▸ scanned.start_le_stop found
      exact ⟨rfl, Nat.le_succ _, le, next, foundNext, gap, blanks⟩
    · exact coherent.refl

instance token_steady (kind : TokenKind) (label : String) : Steady (token kind label) := by
  unfold token; infer_instance

instance spelled_steady (kind : TokenKind) (word : String) : Steady (spelled kind word) := by
  unfold spelled; infer_instance

instance keyword_steady (word : String) : Steady (keyword word) := by unfold keyword; infer_instance

instance operator_steady (symbol : String) : Steady (operator symbol) := by
  unfold operator
  infer_instance

instance eof_steady : Steady eof := by rw [eof_eq]; infer_instance

instance whitespace_steady : Steady whitespace where
  follows {input} scanned {start} coherent := by
    obtain ⟨token, found, le, -⟩ := coherent
    obtain ⟨comments, index, next, run, later, foundNext, start⟩ := scanned.whitespace_apply found
    rw [run]
    refine ⟨rfl, later, Nat.le_trans le start, next, foundNext, Nat.le_refl _, ?_⟩
    simp [Outcome.cursor, Text.slice_of_le]

/-! ## Combinators -/

/-- Looking ahead leaves the cursor as it is, whatever it looks for. -/
instance lookAhead_steady (parser : Parser α) : Steady (lookAhead parser) :=
  .of_stays fun input start => by
  unfold lookAhead
  split <;> rfl

instance reference_steady : Steady reference := by unfold reference; infer_instance

instance indented_steady : Steady indented := by unfold indented; infer_instance

instance aligned_steady : Steady aligned := by unfold aligned; infer_instance

section Combinators

variable (parser : Parser α) [steady : Steady parser]

instance padded_steady : Steady (padded parser) := by unfold padded; infer_instance

instance trackNewline_steady : Steady (trackNewline parser) where
  follows {input} scanned {start} coherent := by
    have follows := steady.follows scanned coherent
    unfold trackNewline
    split
    · rename_i run
      rwa [run] at follows
    · rename_i run
      rwa [run] at follows

instance located_steady : Steady (located parser) := by unfold located; infer_instance

instance withReference_steady : Steady (withReference parser) where
  follows {input} scanned {start} coherent := by
    have inner : input.Coherent
          { start with indentation := start.position.column :: start.indentation } := coherent
    have follows := steady.follows scanned inner
    unfold withReference
    split
    · rename_i run
      rw [run] at follows
      exact ⟨rfl, follows.index, follows.offset, follows.coherent⟩
    · rename_i run
      rw [run] at follows
      exact ⟨rfl, follows.index, follows.offset, follows.coherent⟩

instance attempt_steady : Steady (attempt parser) where
  follows {input} scanned {start} coherent := by
    have follows := steady.follows scanned coherent
    unfold attempt
    split
    · exact coherent.refl
    · exact follows

instance optional_steady : Steady (optional parser) where
  follows {input} scanned {start} coherent := by
    have follows := steady.follows scanned coherent
    unfold optional
    split
    · rename_i run
      rwa [run] at follows
    · rename_i run
      rw [run] at follows
      split
      · exact follows
      · exact coherent.refl
    · rename_i run
      rwa [run] at follows

instance expecting_steady (label : String) : Steady (expecting label parser) where
  follows {input} scanned {start} coherent := by
    have follows := steady.follows scanned coherent
    unfold expecting
    split
    · rename_i error after run
      rw [run] at follows
      split
      · exact follows
      · exact follows.trans ((fail_steady [label]).follows scanned follows.coherent)
    · exact follows

instance commitIf_steady (check : Parser β) : Steady (commitIf check parser) := by
  unfold commitIf
  infer_instance

instance map_steady (change : α → β) : Steady (change <$> parser) :=
  .bind steady fun value => pure_steady (change value)

end Combinators

/-! ## Choices -/

/-- A choice is steady if each of its alternatives is. -/
theorem choiceAfter_steady (label : Option String) (expected : List String)
    (alternatives : List (Parser α)) (each : ∀ alternative ∈ alternatives, Steady alternative) :
    Steady (choiceAfter label expected alternatives) where
  follows {input} scanned {start} coherent := by
    induction alternatives generalizing expected with
    | nil => exact (fail_steady _).follows scanned coherent
    | cons alternative others ih =>
      obtain ⟨steady, rest⟩ := List.forall_mem_cons.mp each
      have follows := steady.follows scanned coherent
      simp only [choiceAfter]
      split
      · rename_i run
        rw [run] at follows
        split
        · exact follows
        · exact ih _ rest
      · exact follows

/-- Parsers that are all steady. -/
class AllSteady (parsers : List (Parser α)) : Prop where
  /-- Each of them is steady. -/
  each : ∀ parser ∈ parsers, Steady parser

instance nil_allSteady : AllSteady ([] : List (Parser α)) := ⟨List.forall_mem_nil _⟩

instance cons_allSteady (parser : Parser α) (rest : List (Parser α)) [first : Steady parser]
    [others : AllSteady rest] : AllSteady (parser :: rest) :=
  ⟨List.forall_mem_cons.mpr ⟨first, others.each⟩⟩

instance append_allSteady (front rest : List (Parser α)) [first : AllSteady front]
    [others : AllSteady rest] : AllSteady (front ++ rest) :=
  ⟨List.forall_mem_append.mpr ⟨first.each, others.each⟩⟩

instance choice_steady (alternatives : List (Parser α)) [all : AllSteady alternatives] :
    Steady (choice alternatives) :=
  choiceAfter_steady _ _ _ all.each

instance choiceNamed_steady (label : String) (alternatives : List (Parser α))
    [all : AllSteady alternatives] : Steady (choiceNamed label alternatives) :=
  choiceAfter_steady _ _ _ all.each

/-! ## Repetition -/

/-- A parser with a bound from the input is steady if it is with every bound. -/
theorem Steady.bounded {parser : Nat → Parser α} (steady : ∀ bound, Steady (parser bound))
    (limit : Input → Nat) : Steady fun input => parser (limit input) input where
  follows scanned _ coherent := (steady _).follows scanned coherent

instance valuesUpTo_steady (parser : Parser (Option α)) [Steady parser] (bound : Nat) :
    Steady (valuesUpTo parser bound) := by
  induction bound with
  | zero => unfold valuesUpTo; infer_instance
  | succ bound ih =>
    unfold valuesUpTo
    refine .bind inferInstance fun before => .bind inferInstance fun found => ?_
    split <;> infer_instance

instance values_steady (parser : Parser (Option α)) [Steady parser] : Steady (values parser) :=
  .bounded (fun bound => valuesUpTo_steady parser bound) Input.repetitionLimit

instance many_steady (parser : Parser α) [Steady parser] : Steady (many parser) := by
  unfold many
  infer_instance

instance itemsUpTo_steady (close : TokenKind) (item : Parser α) [Steady item] (label : String)
    (bound : Nat) (before : Comments) : Steady (itemsUpTo close item label bound before) := by
  induction bound generalizing before with
  | zero => unfold itemsUpTo; infer_instance
  | succ bound ih => unfold itemsUpTo; infer_instance

instance separated_steady (close : TokenKind) (item : Parser α) [Steady item] (label : String) :
    Steady (separated close item label) := by
  have items (before : Comments) :
      Steady fun input => itemsUpTo close item label input.repetitionLimit before input :=
    .bounded (fun bound => itemsUpTo_steady close item label bound before) Input.repetitionLimit
  unfold separated
  refine .bind inferInstance fun before => .bind inferInstance fun closes => ?_
  split
  · infer_instance
  · exact .bind (items before) inferInstance

instance group_steady (openingKind close : TokenKind) (item : Parser α) [Steady item]
    (label : String) : Steady (group openingKind close item label) := by
  unfold group
  infer_instance

end Parser

end Marginalia
