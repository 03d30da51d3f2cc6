import Marginalia.Grammar.Module
import Marginalia.Proofs.Cursor.Steady
import Marginalia.Proofs.Parser.Run

/-!
# What may stand in the first column

The parts of a declaration are tied to each other in three ways. What has been read may wait for
more, as behind an equals sign; a token may be one that nothing begins with, as a closing bracket;
and arguments and the entries of blocks are checked to be indented. `Indents` follows the first two
through a run, so that only the third needs an argument about columns: it tells whether the next
token is known to be past the first column before a run and after it. It is a class, so that
instance search goes along the rules of the grammar.
-/

namespace Marginalia

open Marginalia.Parser

/-! ## Ties between tokens -/

/-- What follows a token of the kind belongs to what the token stands in. -/
def TokenKind.waits : TokenKind → Bool
  | keyword | operator | leftParen | leftBrace | leftBracket | comma | dot | range | colon |
      equals | pipe | arrow
  | backslash => true
  | _ => false

/-- Nothing begins with a token of the kind; a dot that begins an accessor is an argument or stands
behind what waits. -/
def TokenKind.joins : TokenKind → Bool
  | operator | rightParen | rightBrace | rightBracket | comma | dot | range | colon | equals |
      pipe | arrow =>
    true
  | _ => false

/-- The reserved words that nothing begins with. -/
def joiningWords : List String := ["then", "else", "of", "in", "as"]

/-- The token belongs to what stands before it, whatever that is. -/
def Token.Joins (token : Token) : Prop :=
  token.kind.joins = true ∨ token.kind = .keyword ∧ ∃ word ∈ joiningWords,
    token.lexeme = Text.ofString word

/-- What has been read waits for more. The solid tokens read are given with the last one first. -/
def Waits : List Token → Prop
  | [] => False
  | last :: earlier =>
    last.kind.waits = true ∨ (∃ word ∈ earlier.head?, word.kind = .keyword ∧
        word.lexeme = Text.ofString "type" ∧ last.lexeme = Text.ofString "alias") ∨
      ∃ word ∈ earlier.head?, (Grammar.fixityKeyword? word.lexeme).isSome = true ∧
      last.kind = .number

/-- The token is tied to the solid tokens before it, of which the last one is given first. -/
def Tied (read : List Token) (token : Token) : Prop := Waits read ∨ token.Joins

/-- The solid tokens before an index, the last one first. -/
def Input.readBefore (input : Input) (index : Nat) : List Token :=
  ((input.tokens.toList.take index).filter fun token => !token.isComment).reverse

/-- Behind a solid token it is the last one that was read. -/
theorem Input.readBefore_succ {input : Input} {index : Nat} {token : Token}
    (found : input.tokens[index]? = some token) (solid : token.isComment = false) :
    input.readBefore (index + 1) = token :: input.readBefore index := by
  rw [← Array.getElem?_toList] at found
  rw [readBefore, List.take_add_one, found, List.filter_append]
  simp [solid, readBefore]

/-- Comments are not among what was read. -/
theorem Input.readBefore_of_comments {input : Input} {first second : Nat} (le : first ≤ second)
    (comments : ∀ index, first ≤ index → index < second → ∀ token, input.tokens[index]? =
      some token → token.isComment = true) : input.readBefore second = input.readBefore first := by
  refine Input.eq_of_comments (fun index here => ?_) le comments
  rw [← Array.getElem?_toList] at here
  rw [readBefore, readBefore, List.take_add_one, List.filter_append]
  cases found : input.tokens.toList[index]? with
  | none => simp
  | some token => simp [here token found]

/-! ## Stretches -/

/-- A stretch of the tokens of a source in which every token that is tied to what stands before it
is past the first column. The first token of the stretch may be anywhere. -/
structure Stretch where
  /-- The input. -/
  input : Input
  /-- The tokens are those of the source. -/
  scanned : input.Scanned
  /-- The index of the first token. -/
  first : Nat
  /-- The index behind the last token. -/
  limit : Nat
  /-- What is tied is past the first column. -/
  tied : ∀ index token, first < index → index < limit → input.tokens[index]? = some token →
    token.isComment = false → Tied (input.readBefore index) token → 1 < token.span.start.column

namespace Stretch

variable {s : Stretch} {start middle stop : Cursor}

/-- The token at an index, if it is a solid one behind the first one of the stretch, is past the
first column. -/
def Past (s : Stretch) (index : Nat) : Prop :=
  s.first < index → index < s.limit → ∀ token, s.input.tokens[index]? = some token →
    token.isComment = false → 1 < token.span.start.column

/-- The next solid token is past the first column. -/
def Clear (s : Stretch) (cursor : Cursor) : Prop :=
  ∀ index, cursor.index ≤ index → (∀ i, cursor.index ≤ i → i < index →
      ∀ token, s.input.tokens[i]? = some token → token.isComment = true) → s.Past index

/-- A run may begin at the cursor. -/
structure Fits (s : Stretch) (cursor : Cursor) : Prop where
  /-- The cursor is coherent. -/
  coherent : s.input.Coherent cursor
  /-- Columns are counted from one. -/
  column : 1 ≤ cursor.position.column
  /-- The reference of indentation is a column. -/
  reference : 1 ≤ cursor.reference
  /-- The cursor is not before the stretch. -/
  inside : s.first ≤ cursor.index

/-- A run may lead from one cursor to another: what it reads is past the first column, and so is the
next solid token where this is known. -/
structure Leads (s : Stretch) (after : Bool) (start stop : Cursor) : Prop where
  /-- The cursor follows the first one. -/
  follows : s.input.Follows start stop
  /-- Columns are counted from one. -/
  column : 1 ≤ stop.position.column
  /-- What is read is past the first column. -/
  past : ∀ index, start.index ≤ index → index < stop.index → s.Past index
  /-- The next solid token is past the first column. -/
  clear : after = true → s.Clear stop

/-- A run may begin where one has led to. -/
theorem Leads.fits {after : Bool} (leads : s.Leads after start stop) (fits : s.Fits start) :
    s.Fits stop := by
  refine ⟨leads.follows.coherent, leads.column, ?_, Nat.le_trans fits.inside leads.follows.index⟩
  rw [Cursor.reference, leads.follows.indentation]
  exact fits.reference

/-- One run leads on from where another one has led to. -/
theorem Leads.trans {between after : Bool} (earlier : s.Leads between start middle)
    (later : s.Leads after middle stop) : s.Leads after start stop := by
  refine ⟨earlier.follows.trans later.follows, later.column, fun index lower upper =>
      ?_, later.clear⟩
  by_cases early : index < middle.index
  · exact earlier.past index lower early
  · exact later.past index (by omega) upper

/-- A run that reads nothing leads to where it began. -/
theorem Fits.leads {known : Bool} (fits : s.Fits start) (clear : known = true → s.Clear start) :
    s.Leads known start start :=
  ⟨fits.coherent.refl, fits.column, fun _ lower upper => absurd upper (Nat.not_lt.mpr lower), clear⟩

/-- Behind what waits the next solid token is past the first column. -/
theorem clear_of_waits (waits : Waits (s.input.readBefore start.index)) : s.Clear start := by
  intro index lower comments inside below token found solid
  refine s.tied index token inside below found solid (.inl ?_)
  rwa [Input.readBefore_of_comments lower comments]

/-- Past the last token no token is left. -/
theorem clear_of_none {index : Nat} (le : index ≤ start.index)
    (none : s.input.tokens[index]? = none) : s.Clear start := by
  intro later lower _ _ _ token found
  have outside := Array.getElem?_eq_none_iff.mp none
  rw [Array.getElem?_eq_none (by omega)] at found
  cases found

end Stretch

namespace Parser

variable {α β : Type} {before between after : Bool}

/-- A successful run of the parser reads only what is past the first column, if the next token is
known to be where this is asked; behind it the next token is known to be where this is told. -/
class Indents (before : Bool) (after : outParam Bool) (parser : Parser α) : Prop where
  /-- A successful run leads to the cursor it leaves. -/
  leads (s : Stretch) {start stop : Cursor} {value : α} (fits : s.Fits start)
    (clear : before = true → s.Clear start) (run : parser s.input start = .done value stop) :
    s.Leads after start stop

/-- A run that reads nothing knows what was known before it. -/
theorem Indents.of_stays {parser : Parser α}
    (stays : ∀ {input start stop value}, parser input start = .done value stop → stop = start) :
    Indents before before parser where
  leads _ _ _ _ fits clear run := stays run ▸ fits.leads clear

/-- A parser that never succeeds. -/
theorem Indents.of_fails {parser : Parser α}
    (fails : ∀ {input start stop value}, parser input start ≠ .done value stop) :
    Indents before after parser where
  leads _ _ _ _ _ _ run := absurd run fails

/-- One parser after another. -/
theorem Indents.bind {parser : Parser α} {next : α → Parser β}
    (first : Indents before between parser) (second : ∀ value, Indents between after (next value)) :
    Indents before after (parser >>= next) where
  leads s start stop value fits clear run := by
    obtain ⟨found, middle, runFirst, runSecond⟩ := bind_done.mp run
    have earlier := first.leads s fits clear runFirst
    exact earlier.trans ((second found).leads s (earlier.fits fits) earlier.clear runSecond)

/-- A part that may be absent, and what follows it either way. -/
theorem Indents.bindOptional {parser : Parser α} {next : Option α → Parser β}
    (first : Indents before between parser)
    (present : ∀ value, Indents between after (next (some value)))
    (absent : Indents before after (next none)) :
    Indents before after (optional parser >>= next) where
  leads s start stop value fits clear run := by
    obtain ⟨found, middle, runFirst, runSecond⟩ := bind_done.mp run
    rcases optional_done runFirst with ⟨inner, rfl, ran⟩ | ⟨rfl, rfl⟩
    · have earlier := first.leads s fits clear ran
      exact earlier.trans ((present inner).leads s (earlier.fits fits) earlier.clear runSecond)
    · exact absent.leads s fits clear runSecond

instance pure_indents (value : α) : Indents before before (pure value : Parser α) :=
  .of_stays fun run => (Outcome.done.inj run).2.symm

instance bind_indents (parser : Parser α) (next : α → Parser β)
    [first : Indents before between parser] [second : ∀ value, Indents between after (next value)] :
    Indents before after (parser >>= next) := .bind first second

instance ite_indents (condition : Prop) [Decidable condition] (yes no : Parser α)
    [Indents before after yes] [Indents before after no] :
    Indents before after (if condition then yes else no) := by
  split <;> infer_instance

instance interrupt_indents (interruption : Interruption) :
    Indents before false (interrupt interruption : Parser α) :=
  .of_fails fun run => nomatch run

instance reject_indents (error : ParseError) : Indents before false (reject error : Parser α) :=
  .of_fails fun run => nomatch run

instance fail_indents (expected : List String) : Indents before false (fail expected : Parser α) :=
  .of_fails (fail_ne_done _ _ _ _ _)

instance cursor_indents : Indents before before cursor :=
  .of_stays fun run => (Outcome.done.inj run).2.symm

instance position_indents : Indents before before position :=
  .of_stays fun run => (Outcome.done.inj run).2.symm

instance peek_indents : Indents before before peek := .of_stays fun run => (peek_done run).2

instance isAdjacent_indents : Indents before before isAdjacent := by
  unfold isAdjacent
  infer_instance

instance peekThat_indents (property : Token → Bool) :
    Indents before before (peekThat property) := by
  unfold peekThat; infer_instance

instance peekIs_indents (kind : TokenKind) : Indents before before (peekIs kind) := by
  unfold peekIs
  infer_instance

instance peekSpelled_indents (kind : TokenKind) (lexeme : Text) :
    Indents before before (peekSpelled kind lexeme) := by
  unfold peekSpelled; infer_instance

instance lookAhead_indents (parser : Parser α) : Indents before before (lookAhead parser) :=
  .of_stays fun run => (lookAhead_done run).1

/-! ## Reading -/

/-- A token that is read is past the first column if this was known or if it joins, and behind it
this is known of the next one if what was read waits. -/
theorem Indents.satisfy {property : Token → Bool} (label : String)
    (joins : before = false → ∀ token, property token = true → token.Joins)
    (waits : after = true → ∀ token read, property token = true → Waits (token :: read)) :
    Indents before after (satisfy property label) where
  leads s start stop token fits clear run := by
    obtain ⟨found, readable, rfl⟩ := satisfy_done run
    obtain ⟨starts, solid, holds⟩ := readable
    have follows := Steady.follows_done s.scanned fits.coherent run
    have member := Input.Scanned.mem_of_tokenAt? found
    have place := (Scan.Divides.places s.scanned [] rfl token member).2.place
    refine ⟨follows, ?_, fun index lower upper => ?_, fun known => ?_⟩
    · show 1 ≤ token.span.stop.column
      rw [place, Position.ofOffset]
      exact Nat.le_add_right _ _
    · obtain rfl : index = start.index := Nat.le_antisymm (Nat.lt_succ_iff.mp upper) lower
      cases before with
      | true =>
        refine clear rfl start.index (Nat.le_refl _) fun i lower upper => ?_
        omega
      | false =>
        intro inside below other foundOther solidOther
        obtain rfl : token = other := by
          rw [Input.tokenAt?, foundOther] at found
          exact (Option.some.inj found).symm
        exact s.tied start.index token inside below foundOther solid (.inr (joins rfl token holds))
    · cases inside : s.input.tokens[start.index]? with
      | none => exact Stretch.clear_of_none (Nat.le_succ _) inside
      | some other =>
        obtain rfl : token = other := by
          rw [Input.tokenAt?, inside] at found
          exact (Option.some.inj found).symm
        refine Stretch.clear_of_waits ?_
        show Waits (s.input.readBefore (start.index + 1))
        rw [Input.readBefore_succ inside solid]
        exact waits known token _ holds

/-- A token of a kind, as the kind is. -/
theorem token_indents {kind : TokenKind} {label : String}
    (joins : before = false → kind.joins = true) (waits : after = true → kind.waits = true) :
    Indents before after (token kind label) := by
  refine .satisfy label (fun free token holds => .inl ?_) fun known token read holds => .inl ?_
  · rw [beq_iff_eq.mp holds]
    exact joins free
  · rw [beq_iff_eq.mp holds]
    exact waits known

section Tokens

variable (label : String)

instance operatorToken_indents : Indents before true (token .operator label) :=
  token_indents (fun _ => rfl) fun _ => rfl

instance commaToken_indents : Indents before true (token .comma label) :=
  token_indents (fun _ => rfl) fun _ => rfl

instance dotToken_indents : Indents before true (token .dot label) :=
  token_indents (fun _ => rfl) fun _ => rfl

instance rangeToken_indents : Indents before true (token .range label) :=
  token_indents (fun _ => rfl) fun _ => rfl

instance colonToken_indents : Indents before true (token .colon label) :=
  token_indents (fun _ => rfl) fun _ => rfl

instance equalsToken_indents : Indents before true (token .equals label) :=
  token_indents (fun _ => rfl) fun _ => rfl

instance pipeToken_indents : Indents before true (token .pipe label) :=
  token_indents (fun _ => rfl) fun _ => rfl

instance arrowToken_indents : Indents before true (token .arrow label) :=
  token_indents (fun _ => rfl) fun _ => rfl

instance rightParenToken_indents : Indents before false (token .rightParen label) :=
  token_indents (fun _ => rfl) (by simp)

instance rightBraceToken_indents : Indents before false (token .rightBrace label) :=
  token_indents (fun _ => rfl) (by simp)

instance rightBracketToken_indents : Indents before false (token .rightBracket label) :=
  token_indents (fun _ => rfl) (by simp)

instance leftParenToken_indents : Indents true true (token .leftParen label) :=
  token_indents (by simp) fun _ => rfl

instance leftBraceToken_indents : Indents true true (token .leftBrace label) :=
  token_indents (by simp) fun _ => rfl

instance leftBracketToken_indents : Indents true true (token .leftBracket label) :=
  token_indents (by simp) fun _ => rfl

instance backslashToken_indents : Indents true true (token .backslash label) :=
  token_indents (by simp) fun _ => rfl

instance lowerIdentifierToken_indents : Indents true false (token .lowerIdentifier label) :=
  token_indents (by simp) (by simp)

instance upperIdentifierToken_indents : Indents true false (token .upperIdentifier label) :=
  token_indents (by simp) (by simp)

instance numberToken_indents : Indents true false (token .number label) :=
  token_indents (by simp) (by simp)

instance shaderToken_indents : Indents true false (token .shader label) :=
  token_indents (by simp) (by simp)

end Tokens

/-- A reserved word that begins something. -/
instance keyword_indents (word : String) : Indents true true (keyword word) := by
  refine .satisfy _ nofun fun _ token read holds => .inl ?_
  rw [(isSpelled_iff.mp holds).1]
  rfl

/-- A reserved word that begins nothing. -/
theorem joiningKeyword_indents {word : String} (joins : word ∈ joiningWords) :
    Indents before true (keyword word) := by
  refine .satisfy _ (fun _ token holds => .inr ?_) fun _ token read holds => .inl ?_
  · obtain ⟨kind, lexeme⟩ := isSpelled_iff.mp holds
    exact ⟨kind, word, joins, lexeme⟩
  · rw [(isSpelled_iff.mp holds).1]
    rfl

instance then_indents : Indents before true (keyword "then") := joiningKeyword_indents (by decide)

instance else_indents : Indents before true (keyword "else") := joiningKeyword_indents (by decide)

instance of_indents : Indents before true (keyword "of") := joiningKeyword_indents (by decide)

instance in_indents : Indents before true (keyword "in") := joiningKeyword_indents (by decide)

instance as_indents : Indents before true (keyword "as") := joiningKeyword_indents (by decide)

instance operator_indents (symbol : String) : Indents before true (operator symbol) := by
  refine .satisfy _ (fun _ token holds => .inl ?_) fun _ token read holds => .inl ?_ <;>
    rw [(isSpelled_iff.mp holds).1] <;> rfl

/-- Between the comments at an index there are comments only. -/
theorem isComment_of_lt {input : Input} {first index : Nat} (lower : first ≤ index)
    (upper : index < first + (input.commentsAt first).length) :
    ∀ token, input.tokens[index]? = some token → token.isComment = true := by
  intro token found
  have here : (input.tokens.toList.drop first)[index - first]? = some token := by
    rw [List.getElem?_drop, Array.getElem?_toList,
      show first + (index - first) = index by omega, found]
  rw [input.drop_eq_commentsAt_append, List.getElem?_append_left (by omega)] at here
  exact input.isComment_of_mem_commentsAt first token (List.mem_of_getElem? here)

/-- Behind the comments at an index stands none. -/
theorem isComment_behind {input : Input} {first : Nat} {token : Token}
    (found : input.tokens[first + (input.commentsAt first).length]? = some token) :
    token.isComment = false := by
  fun_induction Input.commentsAt input first with
  | case1 index inside here comment ih =>
    rw [List.length_cons, ← Nat.add_assoc, Nat.add_right_comm] at found
    exact ih found
  | case2 index inside here notComment =>
    rw [List.length_nil, Nat.add_zero, Array.getElem?_eq_getElem inside] at found
    obtain rfl := Option.some.inj found
    simpa using notComment
  | case3 index outside =>
    rw [List.length_nil, Nat.add_zero, Array.getElem?_eq_none (by omega)] at found
    cases found

instance whitespace_indents : Indents before before whitespace where
  leads s start stop comments fits clear run := by
    have follows := Steady.follows_done s.scanned fits.coherent run
    obtain ⟨token, foundToken, -, -⟩ := fits.coherent
    obtain ⟨_, _, next, again, -, foundNext, -⟩ := s.scanned.whitespace_apply foundToken
    obtain ⟨-, same⟩ := Outcome.done.inj (run.symm.trans again)
    obtain ⟨_, _, -, here⟩ := whitespace_done run
    have index : stop.index = start.index + (s.input.commentsAt start.index).length :=
      congrArg Cursor.index here
    have comment :
        ∀ i, start.index ≤ i → i < stop.index → ∀ token, s.input.tokens[i]? = some token →
          token.isComment = true := fun i lower upper => isComment_of_lt lower (index ▸ upper)
    have place :=
      (Scan.Divides.places s.scanned [] rfl next (Input.Scanned.mem_of_tokenAt? foundNext)).1.place
    refine ⟨follows, ?_, fun i lower upper _ _ token found solid => ?_,
      fun known i lower between => ?_⟩
    · rw [same]
      show 1 ≤ next.span.start.column
      rw [place, Position.ofOffset]
      exact Nat.le_add_right _ _
    · rw [comment i lower upper token found] at solid
      cases solid
    · refine clear known i (Nat.le_trans follows.index lower) fun j first last => ?_
      by_cases early : j < stop.index
      · exact comment j first early
      · exact between j (by omega) last

/-! ## Combinators -/

section Combinators

variable (parser : Parser α) [indents : Indents before after parser]

instance padded_indents : Indents before after (padded parser) := by
  unfold padded; infer_instance

instance trackNewline_indents : Indents before after (trackNewline parser) where
  leads s _ _ _ fits clear run := indents.leads s fits clear (trackNewline_done run).1

instance located_indents : Indents before after (located parser) where
  leads s _ _ _ fits clear run := indents.leads s fits clear (located_done run).2

instance attempt_indents : Indents before after (attempt parser) where
  leads s _ _ _ fits clear run := indents.leads s fits clear (attempt_done.mp run)

instance expecting_indents (label : String) : Indents before after (expecting label parser) where
  leads s _ _ _ fits clear run := indents.leads s fits clear (expecting_done run)

instance commitIf_indents (check : Parser β) : Indents before after (commitIf check parser) := by
  unfold commitIf; infer_instance

instance map_indents (change : α → β) : Indents before after (change <$> parser) :=
  .bind indents fun value => pure_indents (change value)

/-- A block is measured from a column. -/
instance withReference_indents : Indents before after (withReference parser) where
  leads s start stop value fits clear run := by
    obtain ⟨inner, ran, rfl⟩ := withReference_done run
    have fitsInner :
        s.Fits { start with indentation := start.position.column :: start.indentation } :=
      ⟨fits.coherent, fits.column, fits.column, fits.inside⟩
    have leads := indents.leads s fitsInner clear ran
    exact ⟨⟨rfl, leads.follows.index, leads.follows.offset, leads.follows.coherent⟩, leads.column,
      leads.past, leads.clear⟩

end Combinators

/-- What is known before a part that may be absent is known behind it, if the part tells it as
well. -/
instance optional_indents (parser : Parser α) [indents : Indents before before parser] :
    Indents before before (optional parser) where
  leads s start stop value fits clear run := by
    rcases optional_done run with ⟨inner, -, ran⟩ | ⟨-, rfl⟩
    · exact indents.leads s fits clear ran
    · exact fits.leads clear

/-- What needs no knowledge of the next token may have it. -/
theorem Indents.of_free {parser : Parser α} (free : Indents false after parser) :
    Indents before after parser where
  leads s _ _ _ fits _ run := free.leads s fits nofun run

/-- What is known behind a run may be left out. -/
theorem Indents.forget {parser : Parser α} (indents : Indents before after parser) :
    Indents before false parser where
  leads s _ _ _ fits clear run := { indents.leads s fits clear run with clear := nofun }

/-- A choice is between alternatives that all know as much. -/
theorem choiceAfter_indents (label : Option String) (expected : List String)
    {alternatives : List (Parser α)}
    (each : ∀ alternative ∈ alternatives, Indents before after alternative) :
    Indents before after (choiceAfter label expected alternatives) where
  leads s _ _ _ fits clear run := by
    obtain ⟨alternative, member, ran⟩ := choiceAfter_done run
    exact (each alternative member).leads s fits clear ran

/-- Parsers that all know as much. -/
class AllIndent (before : Bool) (after : outParam Bool) (parsers : List (Parser α)) : Prop where
  /-- Each of them does. -/
  each : ∀ parser ∈ parsers, Indents before after parser

instance single_allIndent (parser : Parser α) [only : Indents before after parser] :
    AllIndent before after [parser] :=
  ⟨List.forall_mem_singleton.mpr only⟩

instance cons_allIndent (parser : Parser α) (rest : List (Parser α))
    [first : Indents before after parser] [others : AllIndent before after rest] :
    AllIndent before after (parser :: rest) :=
  ⟨List.forall_mem_cons.mpr ⟨first, others.each⟩⟩

instance append_allIndent (front rest : List (Parser α)) [first : AllIndent before after front]
    [others : AllIndent before after rest] : AllIndent before after (front ++ rest) :=
  ⟨List.forall_mem_append.mpr ⟨first.each, others.each⟩⟩

instance choice_indents (alternatives : List (Parser α))
    [all : AllIndent before after alternatives] : Indents before after (choice alternatives) :=
  choiceAfter_indents _ _ all.each

instance choiceNamed_indents (label : String) (alternatives : List (Parser α))
    [all : AllIndent before after alternatives] :
    Indents before after (choiceNamed label alternatives) :=
  choiceAfter_indents _ _ all.each

/-! ## Repetition -/

/-- A bound from the input makes no difference. -/
theorem Indents.bounded {parser : Nat → Parser α}
    (indents : ∀ bound, Indents before after (parser bound)) (limit : Input → Nat) :
    Indents before after fun input => parser (limit input) input where
  leads s _ _ _ fits clear run := (indents _).leads s fits clear run

/-- What is read again and again needs no knowledge of the next token. -/
theorem valuesUpTo_indents (parser : Parser (Option α)) (free : Indents false after parser)
    (bound : Nat) : Indents before false (valuesUpTo parser bound) := by
  induction bound generalizing before with
  | zero => unfold valuesUpTo; infer_instance
  | succ bound ih =>
    unfold valuesUpTo
    refine .bind inferInstance fun earlier =>
      .bindOptional free.of_free (fun value => ?_) (pure_indents _).forget
    cases value with
    | none => exact (pure_indents _).forget
    | some value =>
      refine .bind inferInstance fun later => ?_
      split
      · exact .bind ih fun rest => inferInstance
      · exact (pure_indents _).forget

instance many_indents (parser : Parser α) [free : Indents false after parser] :
    Indents before false (many parser) :=
  .bounded (fun bound => valuesUpTo_indents (some <$> parser) inferInstance bound)
    Input.repetitionLimit

section Sequences

variable (close : TokenKind) (item : Parser α) (label : String) [Indents true false item]
  [closes : ∀ before, Indents before false (token close label)]

instance itemsUpTo_indents (bound : Nat) (comments : Comments) :
    Indents true false (itemsUpTo close item label bound comments) := by
  induction bound generalizing comments with
  | zero => unfold itemsUpTo; infer_instance
  | succ bound ih => unfold itemsUpTo; infer_instance

instance separated_indents : Indents true false (separated close item label) := by
  have items (comments : Comments) : Indents true false fun input =>
        itemsUpTo close item label input.repetitionLimit comments input :=
    .bounded (fun bound => itemsUpTo_indents close item label bound comments) Input.repetitionLimit
  unfold separated
  refine .bind inferInstance fun comments => .bind inferInstance fun ends => ?_
  split
  · infer_instance
  · exact .bind (items comments) inferInstance

instance group_indents (openingKind : TokenKind) [Indents true true (token openingKind label)] :
    Indents true false (group openingKind close item label) := by unfold group; infer_instance

end Sequences

end Parser

end Marginalia
