import Marginalia.Proofs.Concatenation.Heading
import Marginalia.Proofs.Cursor.Grammar
import Marginalia.Proofs.Spelling.Module

/-!
# Declarations persist

The declaration of a type and of a fixity may pass over blanks to something that a declaration may
begin with, so that a run that fails at the end of the shorter input may succeed on the longer one.
`Persists` compares successful runs only: what the short one gives the long one gives. For a choice
it has to be known besides that an alternative that fails at once fails at once on both inputs.
-/

namespace Marginalia

open Marginalia.Parser

variable {α β : Type} {s : Sequel}

namespace Sequel

/-- Two runs may begin at the cursor, and if this is told, a solid token of the shorter input is
ahead of it. -/
def Knows (s : Sequel) (ahead : Bool) (cursor : Cursor) : Prop := s.Ready cursor ∧
  (ahead = true → s.Ahead cursor.index)

/-- A run from a cursor with one property that succeeds on the shorter input succeeds alike on the
longer one, and leaves a cursor with another property. -/
structure Persists (s : Sequel) (Pre Post : Cursor → Prop) (p q : Parser α) : Prop where
  /-- The long run gives what the short one gives. -/
  done {start stop : Cursor} {value : α} (fits : Pre start)
    (run : p s.short start = .done value stop) : q s.long start = .done value stop ∧ Post stop ∧
    stop.indentation = start.indentation

namespace Persists

variable {Pre Mid Post : Cursor → Prop}

/-- What is known before a run may be more, and what is known behind it less. -/
theorem imp {Pre' Post' : Cursor → Prop} {p q : Parser α} (persists : s.Persists Pre Post p q)
    (before : ∀ cursor, Pre' cursor → Pre cursor) (after : ∀ cursor, Post cursor → Post' cursor) :
    s.Persists Pre' Post' p q where
  done fits run := by
    obtain ⟨run', post, indentation⟩ := persists.done (before _ fits) run
    exact ⟨run', after _ post, indentation⟩

/-- One parser after another. -/
theorem bind {p q : Parser α} {f g : α → Parser β} (first : s.Persists Pre Mid p q)
    (second : ∀ value, s.Persists Mid Post (f value) (g value)) :
    s.Persists Pre Post (p >>= f) (q >>= g) where
  done fits run := by
    obtain ⟨value, middle, begins, rest⟩ := bind_done.mp run
    obtain ⟨begins', mid, indentation⟩ := first.done fits begins
    obtain ⟨rest', post, further⟩ := (second value).done mid rest
    exact ⟨bind_done.mpr ⟨value, middle, begins', rest'⟩, post, further.trans indentation⟩

/-- A value alone. -/
theorem pure (value : α) : s.Persists Pre Pre (pure value) (pure value) where
  done fits run := by
    obtain ⟨rfl, rfl⟩ := Outcome.done.inj run
    exact ⟨rfl, fits, rfl⟩

/-- A value with its place. -/
theorem located {p q : Parser α} (persists : s.Persists Pre Post p q) :
    s.Persists Pre Post (located p) (located q) where
  done fits run := by
    obtain ⟨span, inner⟩ := located_done run
    obtain ⟨inner', post, indentation⟩ := persists.done fits inner
    refine ⟨?_, post, indentation⟩
    simp only [Parser.located, bind_done]
    exact ⟨_, _, rfl, _, _, inner', _, _, rfl, by rw [pure_apply, ← span]⟩

/-- Behind blanks that do not part the runs; if they do, what follows cannot begin at the end of the
source. -/
theorem blanks {f g : Comments → Parser α} (passes : ∀ {start}, Pre start →
      (∃ comments cursor, whitespace s.short start = .done comments cursor ∧ whitespace s.long
      start = .done comments cursor ∧ Mid cursor ∧ cursor.indentation = start.indentation) ∨
      ∃ comments cursor, whitespace s.short start = .done comments cursor ∧ cursor.index = s.count)
    (barren : ∀ comments, Barren (f comments))
    (goesOn : ∀ comments, s.Persists Mid Post (f comments) (g comments)) :
    s.Persists Pre Post (whitespace >>= f) (whitespace >>= g) where
  done fits run := by
    obtain ⟨comments, middle, blanks, rest⟩ := bind_done.mp run
    rcases passes fits with ⟨comments', middle', blanks', blanksLong, mid, indentation⟩ |
      ⟨comments', middle', blanks', ends⟩
    · obtain ⟨rfl, rfl⟩ := Outcome.done.inj (blanks.symm.trans blanks')
      obtain ⟨rest', post, further⟩ := (goesOn comments).done mid rest
      exact ⟨bind_done.mpr ⟨_, _, blanksLong, rest'⟩, post, further.trans indentation⟩
    · obtain ⟨rfl, rfl⟩ := Outcome.done.inj (blanks.symm.trans blanks')
      have atEnd : s.short.tokenAt? middle.index = some ⟨.eof, [], ⟨s.stop, s.stop⟩⟩ := by
        rw [ends]
        exact s.tokenAt?_count
      obtain ⟨_, _, fails⟩ := (barren comments).barren atEnd rfl
      rw [fails] at rest
      cases rest

/-- Behind blanks where runs may begin. -/
theorem blanksAlong {f g : Comments → Parser α} [barren : ∀ comments, Barren (f comments)]
    (goesOn : ∀ comments, s.Persists s.Along Post (f comments) (g comments)) :
    s.Persists s.Along Post (whitespace >>= f) (whitespace >>= g) := by
  refine blanks (fun along => ?_) barren goesOn
  rcases along.whitespace with ⟨_, _, run, run', along, indentation, -⟩ |
    ⟨-, _, _, _, _, run, -, parted⟩
  · exact .inl ⟨_, _, run, run', along, indentation⟩
  · exact .inr ⟨_, _, run, by rw [parted.left]⟩

/-- Behind blanks a solid token is ahead. -/
theorem blanksReady {ahead : Bool} {f g : Comments → Parser α}
    [barren : ∀ comments, Barren (f comments)]
    (goesOn : ∀ comments, s.Persists (s.Knows true) Post (f comments) (g comments)) :
    s.Persists (s.Knows ahead) Post (whitespace >>= f) (whitespace >>= g) := by
  refine blanks (fun knows => ?_) barren goesOn
  rcases knows.1.whitespace with ⟨_, _, run, run', leads, known⟩ | ⟨-, _, _, _, _, run, -, parted⟩
  · exact .inl ⟨_, _, run, run', ⟨leads.ready, fun _ => known⟩, leads.indentation⟩
  · exact .inr ⟨_, _, run, by rw [parted.left]⟩

/-- Reading a token that neither opens nor closes a `let`, whatever it waits for. -/
theorem satisfy {property : Token → Bool} (label : String)
    (plain : ∀ token, property token = true → token.kind ≠ .eof ∧ token.nesting = 0) :
    s.Persists s.Along s.Along (satisfy property label) (satisfy property label) where
  done along run := by
    rcases along.satisfy label fun token holds => (plain token holds).1 with
      ⟨token, inside, found, holds, run', runLong⟩ | ⟨_, _, run', -⟩
    · obtain ⟨rfl, rfl⟩ := Outcome.done.inj (run.symm.trans run')
      obtain ⟨notEnd, level⟩ := plain _ holds
      refine ⟨runLong, along.past inside found notEnd ?_, rfl⟩
      rw [level, Int.add_zero]
      exact along.depth
    · rw [run'] at run
      cases run

/-- Reading a token of a kind other than reserved words and the end of the source. -/
theorem token {kind : TokenKind} {label : String} (notEnd : kind ≠ .eof)
    (notWord : kind ≠ .keyword) :
    s.Persists s.Along s.Along (token kind label) (Parser.token kind label) := by
  refine satisfy label fun token holds => ?_
  obtain rfl := beq_iff_eq.mp holds
  exact ⟨notEnd, Token.nesting_of_ne notWord⟩

end Persists

end Sequel

/-- What carries over persists. -/
theorem Parser.Carries.persists {before between : Bool} {manner : Manner} {p q : Parser α}
    (carries : Carries s before (.within between) manner p q) :
    s.Persists (s.Knows before) (s.Knows between) p q where
  done knows run := by
    have meets := carries.meets knows.1 knows.2
    rw [run] at meets
    generalize q s.long _ = outcome at meets
    cases meets with
    | done leads _ known =>
      exact ⟨rfl, ⟨leads.ready, fun same => known (by rw [same])⟩, leads.indentation⟩
    | parted loose => cases loose

/-! ## Choices -/

/-- Where a short run fails at once, the long run fails at once. -/
def Sequel.Sticks (s : Sequel) (start : Cursor) (p q : Parser α) : Prop :=
  ∀ error after, p s.short start = .failed (.rejected error) after → after.movedFrom start = false →
    ∃ error' after', q s.long start = .failed (.rejected error') after' ∧
    after'.movedFrom start = false

namespace Sequel

variable {Pre Post : Cursor → Prop} {start : Cursor}

/-- A choice persists if its alternatives do, and fail at once on both inputs or on none. -/
theorem Persists.choiceAfter (label : Option String) (expected expected' : List String)
    {ps qs : List (Parser α)} (each : List.Forall₂ (fun p q => s.Persists Pre Post p q ∧
      ∀ {start}, Pre start → s.Sticks start p q) ps qs) :
    s.Persists Pre Post (choiceAfter label expected ps)
      (Parser.choiceAfter label expected' qs) where
  done {start stop value} fits run := by
    induction each generalizing expected expected' with
    | nil => exact absurd run (fail_ne_done _ _ _ _ _)
    | @cons p q ps qs first _ ih =>
      obtain ⟨persists, sticks⟩ := first
      simp only [Parser.choiceAfter] at run ⊢
      rcases begins : p s.short start with ⟨found, after⟩ | ⟨error | interruption, after⟩
      · rw [begins] at run
        obtain ⟨rfl, rfl⟩ := Outcome.done.inj run
        obtain ⟨begins', post⟩ := persists.done fits begins
        rw [begins']
        exact ⟨rfl, post⟩
      · rw [begins] at run
        cases moved : after.movedFrom start with
        | true => simp [moved] at run
        | false =>
          obtain ⟨_, _, begins', moved'⟩ := sticks fits error after begins moved
          simp only [moved, Bool.false_eq_true, if_false] at run
          simp only [begins', moved', Bool.false_eq_true, if_false]
          exact ih _ _ run
      · rw [begins] at run
        cases run

/-- A rule that reads a token first has consumed something where it fails later. -/
theorem Sticks.bind_satisfy {property : Token → Bool} {label : String} {f g : Token → Parser α}
    (steady : ∀ token, Steady (f token))
    (notEnd : ∀ token, property token = true → token.kind ≠ .eof) (along : s.Along start) :
    s.Sticks start (Parser.satisfy property label >>= f) (Parser.satisfy property label >>= g) := by
  intro error after fails unmoved
  rw [bind_apply] at fails ⊢
  rcases along.satisfy label notEnd with ⟨token, _, _, _, run, -⟩ | ⟨_, _, -, run'⟩
  · have coherent := along.placeShort.coherent s.scannedShort
    have first : s.short.Follows start (past token start) :=
      Steady.follows_done s.scannedShort coherent run
    have later := (steady token).follows s.scannedShort first.coherent
    rw [run] at fails
    dsimp only at fails
    rw [fails] at later
    have index : start.index + 1 ≤ after.index := later.index
    have same : after.index = start.index := by
      simp only [Cursor.movedFrom, Bool.or_eq_false_iff, bne_eq_false_iff_eq] at unmoved
      exact unmoved.1
    omega
  · rw [run']
    exact ⟨_, _, rfl, start.not_movedFrom⟩

/-- What is done with a value changes nothing about where a rule fails. -/
theorem Sticks.map {p q : Parser α} (sticks : s.Sticks start p q) (f : α → β) :
    s.Sticks start (p >>= fun value => pure (f value)) (q >>= fun value => pure (f value)) := by
  intro error after fails unmoved
  rw [bind_apply] at fails ⊢
  rcases run : p s.short start with ⟨value, stop⟩ | ⟨failure, stop⟩
  · rw [run] at fails
    cases fails
  · rw [run] at fails
    obtain ⟨rfl, rfl⟩ := Outcome.failed.inj fails
    obtain ⟨_, _, run', moved⟩ := sticks _ _ run unmoved
    rw [run']
    exact ⟨_, _, rfl, moved⟩

end Sequel

/-- A firm rule that carries over fails at once on both inputs or on none. -/
theorem Parser.Carries.sticks {before between : Bool} {manner : Manner} [manner.Firm]
    {p q : Parser α} (carries : Carries s before (.within between) manner p q) {start : Cursor}
    (knows : s.Knows before start) : s.Sticks start p q := by
  intro error after fails unmoved
  have meets := carries.meets knows.1 knows.2
  rw [fails] at meets
  generalize q s.long start = outcome at meets
  cases meets with
  | rejected parts => exact ⟨_, _, rfl, (moved_eq parts).symm.trans unmoved⟩

/-! ## Declarations -/

namespace Grammar

open Sequel

instance typeExpression_stops : Stops false false typeExpression := by
  unfold typeExpression typeOver joined typeOperand; infer_instance

instance variant_stops : Stops false false variant := by unfold variant; infer_instance

instance variantsUpTo_barren (bound : Nat) (comments : Comments) :
    Barren (variantsUpTo bound comments) := by
  cases bound <;> unfold variantsUpTo <;> infer_instance

instance variants_barren (comments : Comments) : Barren (variants comments) :=
  ⟨fun {input _ _} found ends =>
      (variantsUpTo_barren input.repetitionLimit comments).barren found ends⟩

/-- The declaration of a type persists. -/
theorem typeDeclaration_persists :
    s.Persists (s.Knows false) (s.Knows false) typeDeclaration typeDeclaration := by
  have aliases : Carries s true (.within false) .stays (optional aliasWord) (optional aliasWord) :=
    inferInstance
  have type : Carries s true (.within false) .reads typeExpression typeExpression := inferInstance
  have constructors (comments : Comments) :
      Carries s true (.within false) .reads (variants comments) (variants comments) :=
    inferInstance
  unfold typeDeclaration
  refine .bind type_carries.persists fun _ => .bind aliases.persists fun aliasComments =>
    .blanksReady fun preName => ?_
  refine .bind (Carries.persists inferInstance) fun name => .bind (Carries.persists inferInstance)
    fun parameters => ?_
  refine .blanksReady fun preEquals => .bind (Carries.persists inferInstance) fun _ => ?_
  cases aliasComments with
  | some preAlias =>
    dsimp only
    exact .blanksReady fun postEquals => .bind type.persists fun _ => .pure _
  | none =>
    dsimp only
    exact .blanksReady fun postEquals => .bind (constructors _).persists fun _ => .pure _

/-- A word that declares a fixity has nothing to do with `let`s. -/
theorem nesting_of_fixityKeyword {token : Token} (word : token.DeclaresFixity) :
    token.nesting = 0 := by
  obtain ⟨associativity, found⟩ := Option.isSome_iff_exists.mp word.2
  have lexeme := word_of_fixityKeyword? found
  have other : Text.ofString associativity.word ≠ Text.ofString "let" ∧
      Text.ofString associativity.word ≠ Text.ofString "in" := by
    cases associativity <;> decide
  simp [Token.nesting, lexeme, other]

/-- The operator of a fixity declaration persists, in parentheses or without. -/
theorem fixityOperator_persists :
    s.Persists s.Along s.Along (choice [parenthesizedOperator, operatorSymbol])
      (choice [parenthesizedOperator, operatorSymbol]) := by
  have parenthesized : s.Persists s.Along s.Along parenthesizedOperator parenthesizedOperator := by
    unfold parenthesizedOperator operatorSymbol
    exact .bind (.token (by simp) (by simp)) fun _ =>
      .bind (.bind (.token (by simp) (by simp)) fun _ => .pure _) fun _ =>
      .bind (.token (by simp) (by simp)) fun _ => .pure _
  have plain : s.Persists s.Along s.Along operatorSymbol operatorSymbol :=
    .bind (.token (by simp) (by simp)) fun _ => .pure _
  have notEnd (kind : TokenKind) (solid : kind ≠ .eof) (token : Token)
      (holds : (token.kind == kind) = true) : token.kind ≠ .eof := by
    rwa [beq_iff_eq.mp holds]
  refine .choiceAfter _ _ _
    (.cons ⟨parenthesized, fun along => ?_⟩ (.cons ⟨plain, fun along => ?_⟩ .nil))
  · exact .bind_satisfy (fun _ => inferInstance) (notEnd .leftParen (by simp)) along
  · exact .bind_satisfy (fun _ => inferInstance) (notEnd .operator (by simp)) along

/-- The word of a fixity declaration is a word. -/
theorem isFixityWord {token : Token}
    (holds : (token.kind == .keyword && (fixityKeyword? token.lexeme).isSome) = true) :
    token.DeclaresFixity :=
  ⟨beq_iff_eq.mp (Bool.and_eq_true_iff.mp holds).1, (Bool.and_eq_true_iff.mp holds).2⟩

/-- The declaration of a fixity persists, whatever follows it. -/
theorem fixityDeclaration_persists :
    s.Persists s.Along s.Along fixityDeclaration fixityDeclaration := by
  have number_stops (label : String) : Stops false false (token .number label) :=
    token_stops (by simp)
  unfold fixityDeclaration
  refine .bind (.satisfy _ fun token holds => ?_) fun keyword =>
    .blanksAlong fun prePrecedence => ?_
  · have word := isFixityWord holds
    exact ⟨by simp [word.1], nesting_of_fixityKeyword word⟩
  · refine .bind (.token (by simp) (by simp)) fun number => ?_
    split
    · exact ⟨fun _ run => by cases run⟩
    · exact .blanksAlong fun preOperator => .bind fixityOperator_persists fun _ => .pure _

/-- Another reference of indentation makes no difference to what persists. -/
theorem withReference_persists {ahead : Bool} {p q : Parser α}
    (persists : s.Persists (s.Knows ahead) s.Along p q) :
    s.Persists (s.Knows ahead) s.Along (withReference p) (withReference q) where
  done {start stop value} knows run := by
    obtain ⟨after, inner, rfl⟩ := withReference_done run
    obtain ⟨inner', along, -⟩ := persists.done ⟨ready_inner knows.1, knows.2⟩ inner
    have outer : s.Along { after with indentation := start.indentation } :=
      { along with place := along.place.reindent _, reference := knows.1.reference }
    refine ⟨?_, outer, rfl⟩
    unfold withReference
    rw [inner']

/-- A declaration at the top level persists. -/
theorem topLevel_persists : s.Persists (s.Knows false) s.Along topLevel topLevel := by
  have fixity :
      s.Persists (s.Knows false) s.Along (fixityDeclaration >>= fun found => pure (TopLevel.fixity
        found)) (fixityDeclaration >>= fun found => pure (TopLevel.fixity found)) :=
    .bind (fixityDeclaration_persists.imp (fun _ knows => knows.1.toAlong) fun _ => id)
      fun _ => .pure _
  have fixitySticks {start : Cursor} (along : s.Along start) :
      s.Sticks start fixityDeclaration fixityDeclaration := by
    refine .bind_satisfy (fun keyword => ?_) (fun token holds => ?_) along
    · refine .bind inferInstance fun comments => .bind inferInstance fun number => ?_
      split <;> infer_instance
    · rw [(isFixityWord holds).1]
      simp
  have typeSticks {start : Cursor} (along : s.Along start) :
      s.Sticks start typeDeclaration typeDeclaration := by
    refine .bind_satisfy (fun _ => ?_) (fun token holds => ?_) along
    · refine .bind inferInstance fun aliasComments => .bind inferInstance fun _ =>
        .bind inferInstance fun _ =>
        .bind inferInstance fun _ => .bind inferInstance fun _ => .bind inferInstance fun _ =>
          .bind inferInstance fun _ => ?_
      cases aliasComments <;> infer_instance
    · rw [(isSpelled_iff.mp holds).1]
      simp
  have declared : Carries s false (.within false) .reads
        (declaration expression >>= fun found => pure (TopLevel.declaration found))
        (declaration expression >>= fun found => pure (TopLevel.declaration found)) := inferInstance
  unfold topLevel
  refine .bind (position_carries.persists) fun place => ?_
  split
  · exact ⟨fun _ run => absurd run (fail_ne_done _ _ _ _ _)⟩
  · refine withReference_persists (.located (.choiceAfter _ _ _ ?_))
    refine .cons ⟨fixity, fun knows => (fixitySticks knows.1.toAlong).map _⟩
      (.cons ⟨?_, fun knows => typeSticks knows.1.toAlong⟩
        (.cons ⟨?_, fun knows => declared.sticks knows⟩ .nil))
    · exact typeDeclaration_persists.imp (fun _ => id) fun _ knows => knows.1.toAlong
    · exact declared.persists.imp (fun _ => id) fun _ knows => knows.1.toAlong

end Grammar

end Marginalia
