import Mathlib.Data.List.Forall2
import Marginalia.Proofs.Lockstep.Correspondence

/-!
# Parsers in lockstep

Two parsers run in lockstep on corresponding inputs when from cursors that go along with each other
both succeed, with values that are seen alike, or both fail, reporting the same. Neither is ever cut
short. Every combinator keeps this, and the tokens that are left bound how deep a rule can be
entered again.
-/

namespace Marginalia

open Marginalia.Parser

/-- A test of a token that looks at its kind and its spelling only. -/
def Parser.Telling (property : Token → Bool) : Prop :=
  ∀ t t' : Token, t.kind = t'.kind → t.lexeme = t'.lexeme → property t = property t'

variable {left right : Input} {c : Correspondence left right} {α β γ δ : Type}

/-- What two successes lead to: values that are seen alike, cursors that go along with each other,
and at least so many tokens read on the right. -/
structure Correspondence.Leads (c : Correspondence left right) (seen : View → α → γ) (drop : Nat)
    (r : Cursor) (a : α) (l' : Cursor) (b : α) (r' : Cursor) : Prop where
  /-- The values are seen alike. -/
  same : c.Same seen a b
  /-- The runs can go on. -/
  along : c.Along l' r'
  /-- So many tokens were read. -/
  index : r.index + drop ≤ r'.index
  /-- No run goes back. -/
  offset : r.position.offset ≤ r'.position.offset

/-- From cursors that go along with each other and have at most so many tokens left, the parsers
meet: their values are seen alike, and at least so many tokens were read. -/
def Correspondence.Steps (c : Correspondence left right) (unread drop : Nat) (seen : View → α → γ)
    (p q : Parser α) : Prop :=
  ∀ l r, c.Along l r → right.tokens.size - r.index ≤ unread →
    c.Meets (c.Leads seen drop r) (p left l) (q right r)

namespace Correspondence.Steps

variable {seen : View → α → γ} {seen' : View → β → δ} {p q : Parser α}
  {f g : α → Parser β} {n m d : Nat}

/-! ## Sequencing -/

/-- Where no token is left, nothing can go wrong. -/
theorem of_none : c.Steps 0 d seen p q := by
  intro l r along within
  have some := c.unread_pos along
  omega

/-- What runs in lockstep with more tokens left does so with fewer. -/
theorem mono (steps : c.Steps n d seen p q) (le : m ≤ n) : c.Steps m d seen p q :=
  fun l r along within => steps l r along (Nat.le_trans within le)

/-- How many tokens are read at least need not be told. -/
theorem weaken (steps : c.Steps n d seen p q) : c.Steps n 0 seen p q := by
  intro l r along within
  refine (steps l r along within).imp ?_
  rintro a l' b r' ⟨same, along', index, offset⟩
  exact ⟨same, along', by omega, offset⟩

/-- Values that are seen alike in one way are seen alike in another. -/
theorem imp {other : View → α → δ} (steps : c.Steps n d seen p q)
    (implies : ∀ a b, c.Same seen a b → c.Same other a b) : c.Steps n d other p q := by
  intro l r along within
  refine (steps l r along within).imp fun a l' b r' leads => ?_
  exact ⟨implies a b leads.same, leads.along, leads.index, leads.offset⟩

/-- Values without reading run in lockstep if they are seen alike. -/
theorem pure {a b : α} (same : c.Same seen a b) : c.Steps n 0 seen (pure a) (pure b) :=
  fun _ _ along _ => .done ⟨same, along, Nat.le_refl _, Nat.le_refl _⟩

/-- Sequences run in lockstep if their parts do, the second with the tokens that the first
leaves. -/
theorem sequence {first second : Nat} (begins : c.Steps n first seen p q)
    (goesOn : ∀ a b, c.Same seen a b → c.Steps (n - first) second seen' (f a) (g b)) :
    c.Steps n (first + second) seen' (p >>= f) (q >>= g) := by
  intro l r along within
  refine (begins l r along within).bind ?_
  rintro a l' b r' ⟨same, along', index, offset⟩
  refine (goesOn a b same l' r' along' (by omega)).imp ?_
  rintro _ _ _ _ ⟨sameResult, alongResult, indexResult, offsetResult⟩
  exact ⟨sameResult, alongResult, by omega, by omega⟩

/-- A sequence reads the tokens that its second part reads. -/
theorem bind (first : c.Steps n 0 seen p q)
    (second : ∀ a b, c.Same seen a b → c.Steps n d seen' (f a) (g b)) :
    c.Steps n d seen' (p >>= f) (q >>= g) := by
  have steps := sequence first second
  rwa [Nat.zero_add] at steps

/-- A sequence reads the tokens that its first part reads. -/
theorem andThen (first : c.Steps n d seen p q)
    (second : ∀ a b, c.Same seen a b → c.Steps n 0 seen' (f a) (g b)) :
    c.Steps n d seen' (p >>= f) (q >>= g) :=
  sequence first fun a b same => (second a b same).mono (Nat.sub_le n d)

/-- A sequence whose first part reads a token leaves one token less to the second. -/
theorem follow (first : c.Steps n 1 seen p q)
    (second : ∀ a b, c.Same seen a b → c.Steps (n - 1) 0 seen' (f a) (g b)) :
    c.Steps n 1 seen' (p >>= f) (q >>= g) :=
  sequence first second

/-- A decision runs in lockstep if its test and both of its branches do. -/
theorem ifThen {check check' : Parser Bool} {p' q' : Parser α}
    (checks : c.Steps n 0 View.plain check check') (yes : c.Steps n d seen p q)
    (no : c.Steps n d seen p' q') :
    c.Steps n d seen (check >>= fun holds => if holds then p else p')
      (check' >>= fun holds => if holds then q else q') := by
  refine bind checks fun holds holds' same => ?_
  obtain rfl := same.eq
  split
  · exact yes
  · exact no

/-! ## Looking at the next token -/

/-- Failures at the next tokens run in lockstep. -/
theorem fail (expected : List String) : c.Steps n d seen (fail expected) (fail expected) := by
  intro l r along within
  obtain ⟨t, t', found, found'⟩ := c.next along
  rw [fail_apply, fail_apply, found, found']
  exact .failed (.unexpected _ (c.sees along found found').1) along

/-- Failures at alike numbers run in lockstep. -/
theorem rejectPrecedence {t t' : Token} (same : c.Same Token.view t t') (found : c.Found t t') :
    c.Steps n d seen (reject (.invalidPrecedence t)) (reject (.invalidPrecedence t')) :=
  fun _ _ along _ => .failed (.invalidPrecedence same found) along

/-- A hidden token passes no test that comments do not pass. -/
theorem hidden_fails {property : Token → Bool} {t : Token} {l : Cursor} (hidden : Hidden t l)
    (solid : ∀ t, property t = true → t.isComment = false) :
    (decide (StartsAt t l) && property t) = false := by
  rw [Bool.and_eq_false_iff]
  rcases hidden with comment | apart
  · refine .inr (Bool.eq_false_iff.mpr fun holds => ?_)
    simp [solid t holds] at comment
  · exact .inl (decide_eq_false apart)

/-- Tests of the next tokens give the same, if they look at kind and spelling only and no comment
passes. -/
theorem peekThat {property : Token → Bool} (telling : Telling property)
    (solid : ∀ t, property t = true → t.isComment = false) :
    c.Steps n 0 View.plain (peekThat property) (peekThat property) := by
  intro l r along within
  obtain ⟨t, t', found, found'⟩ := c.next along
  rw [peekThat_apply, peekThat_apply, found, found']
  refine .done ⟨?_, along, Nat.le_refl _, Nat.le_refl _⟩
  show (decide (StartsAt t l) && property t) = (decide (StartsAt t' r) && property t')
  rcases (c.sees along found found').2 with ⟨same, starts⟩ | ⟨hidden, hidden'⟩
  · obtain ⟨sameKind, sameLexeme⟩ := Token.eq_of_view same
    rw [telling t t' sameKind sameLexeme, decide_eq_decide.mpr starts]
  · rw [hidden_fails hidden solid, hidden_fails hidden' solid]

/-- Tests for a kind give the same. -/
theorem peekIs {kind : TokenKind} (solid : kind.isComment = false) :
    c.Steps n 0 View.plain (peekIs kind) (peekIs kind) := by
  refine peekThat (fun t t' sameKind _ => ?_) fun t holds => ?_
  · rw [sameKind]
  · rw [Token.isComment, beq_iff_eq.mp holds, solid]

/-- Tests for a kind and a spelling give the same. -/
theorem peekSpelled {kind : TokenKind} (solid : kind.isComment = false) (lexeme : Text) :
    c.Steps n 0 View.plain (peekSpelled kind lexeme) (peekSpelled kind lexeme) := by
  refine peekThat (fun t t' sameKind sameLexeme => ?_) fun t holds => ?_
  · rw [sameKind, sameLexeme]
  · rw [Token.isComment, (isSpelled_iff.mp holds).1, solid]

/-! ## Tokens -/

/-- Reading a token runs in lockstep, if kind and spelling tell whether it is read and the end never
is. -/
theorem satisfy {property : Token → Bool} (telling : Telling property)
    (notEnd : ∀ t, property t = true → t.kind ≠ .eof) (label : String) :
    c.Steps n 1 Token.view (satisfy property label) (satisfy property label) := by
  intro l r along within
  obtain ⟨t, t', found, found'⟩ := c.next along
  obtain ⟨report, sight⟩ := c.sees along found found'
  rw [satisfy_apply, satisfy_apply, found, found']
  have rejected : c.Meets (c.Leads Token.view 1 r) (.failed (.rejected (.unexpected [label] t)) l)
      (.failed (.rejected (.unexpected [label] t')) r) := .failed (.unexpected _ report) along
  rcases sight with ⟨same, starts⟩ | ⟨hidden, hidden'⟩
  · obtain ⟨sameKind, sameLexeme⟩ := Token.eq_of_view same
    have agree : Readable property t l ↔ Readable property t' r := by
      rw [Readable, Readable, starts, Token.isComment, Token.isComment, sameKind,
        telling t t' sameKind sameLexeme]
    by_cases readable : Readable property t l
    · have readable' := agree.mp readable
      simp only [if_pos readable, if_pos readable']
      have solid := notEnd t readable.2.2
      obtain ⟨_, next, _, stands⟩ := c.standsRight along
      obtain rfl : next = t' := Option.some.inj (stands.tokenAt?.symm.trans found')
      obtain ⟨_, _, _, _, wide⟩ := stands.past c.scannedRight (sameKind ▸ solid)
      have start : next.span.start.offset = r.position.offset := readable'.1
      refine .done ⟨same, c.past along found found' same readable.1 readable.2.1 solid,
        Nat.le_refl _, ?_⟩
      show r.position.offset ≤ next.span.stop.offset
      omega
    · simp only [if_neg readable, if_neg fun readable' => readable (agree.mpr readable')]
      exact rejected
  · have unreadable : ∀ {token : Token} {cursor : Cursor}, Hidden token cursor →
        ¬ Readable property token cursor := by
      rintro token cursor (comment | apart) readable
      · simp [readable.2.1] at comment
      · exact apart readable.1
    simp only [if_neg (unreadable hidden), if_neg (unreadable hidden')]
    exact rejected

/-- Reading a token of a kind runs in lockstep. -/
theorem token {kind : TokenKind} (solid : kind ≠ .eof) (label : String) :
    c.Steps n 1 Token.view (token kind label) (token kind label) := by
  refine satisfy (fun t t' sameKind _ => ?_) (fun t holds => ?_) label
  · rw [sameKind]
  · rw [beq_iff_eq.mp holds]
    exact solid

/-- Behind a token that is read runs in lockstep what may report it. -/
theorem tokenThen {kind : TokenKind} (solid : kind ≠ .eof) (label : String) {f g : Token → Parser β}
    (second : ∀ t t', c.Same Token.view t t' → c.Found t t' → c.Steps n 0 seen' (f t) (g t')) :
    c.Steps n 1 seen' (Parser.token kind label >>= f) (Parser.token kind label >>= g) := by
  intro l r along within
  refine (token solid label l r along within).withRun.bind ?_
  rintro t l' t' r' ⟨⟨same, along', index, offset⟩, run, run'⟩
  have reports := (c.sees along (satisfy_done run).1 (satisfy_done run').1).1
  refine (second t t' same reports l' r' along' (by omega)).imp ?_
  rintro _ _ _ _ ⟨sameResult, alongResult, indexResult, offsetResult⟩
  exact ⟨sameResult, alongResult, by omega, by omega⟩

/-- Reading a token of a kind with a spelling runs in lockstep. -/
theorem spelled {kind : TokenKind} (solid : kind ≠ .eof) (word : String) :
    c.Steps n 1 Token.view (spelled kind word) (spelled kind word) := by
  refine satisfy (fun t t' sameKind sameLexeme => ?_) (fun t holds => ?_) _
  · rw [sameKind, sameLexeme]
  · rw [(isSpelled_iff.mp holds).1]
    exact solid

/-- Reading a reserved word runs in lockstep. -/
theorem keyword (word : String) : c.Steps n 1 Token.view (keyword word) (keyword word) :=
  spelled (by decide) word

/-- Reading an operator runs in lockstep. -/
theorem operator (symbol : String) : c.Steps n 1 Token.view (operator symbol) (operator symbol) :=
  spelled (by decide) symbol

/-- The end of both inputs is found at the same time. -/
theorem eof : c.Steps n 0 View.plain eof eof := by
  rw [eof_eq]
  exact ifThen (peekIs rfl) (pure rfl) (fail _)

/-! ## Blanks, comments and places -/

/-- Passing over blanks and comments runs in lockstep. -/
theorem whitespace : c.Steps n 0 View.comments whitespace whitespace := by
  intro l r along within
  obtain ⟨_, _, _, stands⟩ := c.standsLeft along
  obtain ⟨_, _, _, stands'⟩ := c.standsRight along
  obtain ⟨comments, l', _, _, _, run, _⟩ := stands.whitespace c.scannedLeft
  obtain ⟨comments', r', _, _, _, run', _, _, _, index, offset⟩ := stands'.whitespace c.scannedRight
  obtain ⟨same, along'⟩ := c.skips along run run'
  rw [run, run']
  exact .done ⟨same, along', index, offset⟩

/-- Positions are seen alike. -/
theorem position : c.Steps n 0 View.position Parser.position Parser.position :=
  fun _ _ along _ => .done ⟨c.position along, along, Nat.le_refl _, Nat.le_refl _⟩

/-- Values between comments run in lockstep if the values do. -/
theorem padded (steps : c.Steps n d seen p q) :
    c.Steps n d (fun view => Commented.view view (seen view)) (padded p) (padded q) := by
  refine bind whitespace fun before before' sameBefore => ?_
  refine andThen steps fun a b same => ?_
  exact bind whitespace fun after after' sameAfter =>
    pure (Same.commented c sameBefore same sameAfter)

/-- Located values run in lockstep if the values do. -/
theorem located (steps : c.Steps n d seen p q) :
    c.Steps n d (fun view => Located.view view (seen view)) (located p) (located q) := by
  refine bind position fun start start' sameStart => ?_
  refine andThen steps fun a b same => ?_
  exact bind position fun stop stop' sameStop =>
    pure (by simp [View.span, sameStart, same, sameStop])

/-- Behind blanks and comments the next tokens are of one kind. -/
theorem whitespace_settles {l r : Cursor} (along : c.Along l r) :
    c.Meets (fun a l' b r' => c.Leads (fun view => Located.view view view.comments) 0 r a l' b r' ∧
      c.Settled l' r') (Parser.located Parser.whitespace left l)
      (Parser.located Parser.whitespace right r) := by
  refine (located whitespace l r along (Nat.le_refl _)).withRun.imp ?_
  rintro a l' b r' ⟨leads, run, run'⟩
  exact ⟨leads, c.settled along (located_done run).2 (located_done run').2⟩

/-- Values with their line breaks run in lockstep if the values do. -/
theorem trackNewline (steps : c.Steps n d seen p q) :
    c.Steps n d (fun view found => (seen view found.1, found.2)) (trackNewline p)
      (trackNewline q) := by
  intro l r along within
  have meets := steps l r along within
  rw [Parser.trackNewline, Parser.trackNewline]
  generalize p left l = o at meets
  generalize q right r = o' at meets
  cases meets with
  | done leads =>
    exact .done ⟨Prod.ext leads.same (c.crossed along leads.along), leads.along,
      leads.index, leads.offset⟩
  | failed faults along' => exact .failed faults along'

/-- Parsers with a reference run in lockstep if they do without. -/
theorem withReference (steps : c.Steps n d seen p q) :
    c.Steps n d seen (withReference p) (withReference q) := by
  intro l r along within
  have inner := c.reindent along (l.position.column :: l.indentation)
  have meets := steps _ _ inner within
  rw [Parser.withReference, Parser.withReference, ← c.column along, ← c.indentation along]
  generalize p left _ = o at meets
  generalize q right _ = o' at meets
  cases meets with
  | done leads => exact .done ⟨leads.same, c.reindent leads.along _, leads.index, leads.offset⟩
  | failed faults along' => exact .failed faults (c.reindent along' _)

/-- The references of indentation are the same. -/
theorem reference : c.Steps n 0 View.plain reference reference := by
  intro l r along within
  refine .done ⟨?_, along, Nat.le_refl _, Nat.le_refl _⟩
  show l.reference = r.reference
  rw [Cursor.reference, Cursor.reference, c.indentation along]

/-- What depends on the column runs in lockstep if it does for each. -/
theorem column {k : Nat → Parser α} (steps : ∀ column, c.Steps n d seen (k column) (k column)) :
    c.Steps n d seen (Parser.position >>= fun place => k place.column)
      (Parser.position >>= fun place => k place.column) := by
  intro l r along within
  have meets := steps l.position.column l r along within
  show c.Meets _ (k l.position.column left l) (k r.position.column right r)
  rwa [← c.column along]

/-- Both runs are past the reference or none is. -/
theorem indented : c.Steps n 0 View.plain indented indented := by
  refine bind reference fun level level' same => ?_
  obtain rfl := same.eq
  refine column (k := fun column => if column ≤ level then _ else Pure.pure ()) fun column => ?_
  split
  · exact fail _
  · exact pure rfl

/-- Both runs are at the reference or none is. -/
theorem aligned : c.Steps n 0 View.plain aligned aligned := by
  refine bind reference fun level level' same => ?_
  obtain rfl := same.eq
  refine column (k := fun column => if column ≠ level then _ else Pure.pure ()) fun column => ?_
  split
  · exact fail _
  · exact pure rfl

/-! ## Backtracking and choice -/

/-- Attempts run in lockstep if their parsers do. -/
theorem attempt (steps : c.Steps n d seen p q) : c.Steps n d seen (attempt p) (attempt q) := by
  intro l r along within
  have meets := steps l r along within
  rw [Parser.attempt, Parser.attempt]
  generalize p left l = o at meets
  generalize q right r = o' at meets
  cases meets with
  | done leads => exact .done leads
  | failed faults _ => exact .failed faults along

/-- Lookaheads run in lockstep if their parsers do. -/
theorem lookAhead (steps : c.Steps n d seen p q) :
    c.Steps n 0 seen (lookAhead p) (lookAhead q) := by
  intro l r along within
  have meets := steps l r along within
  rw [Parser.lookAhead, Parser.lookAhead]
  generalize p left l = o at meets
  generalize q right r = o' at meets
  cases meets with
  | done leads => exact .done ⟨leads.same, along, Nat.le_refl _, Nat.le_refl _⟩
  | failed faults _ => exact .failed faults along

/-- Optional values run in lockstep if their parsers do. -/
theorem optional (steps : c.Steps n d seen p q) :
    c.Steps n 0 (fun view => Option.map (seen view)) (optional p) (optional q) := by
  intro l r along within
  have meets := steps l r along within
  rw [Parser.optional, Parser.optional]
  generalize p left l = o at meets
  generalize q right r = o' at meets
  cases meets with
  | done leads =>
    obtain ⟨same, along', index, offset⟩ := leads
    exact .done ⟨congrArg some same, along', by omega, offset⟩
  | failed faults along' =>
    simp only [c.moved along along']
    split
    · exact .failed faults along'
    · exact .done ⟨rfl, along, Nat.le_refl _, Nat.le_refl _⟩

/-- A sequence after an optional value leaves one token less where there is one. -/
theorem optionalThen {f g : Option α → Parser β} (steps : c.Steps n 1 seen p q)
    (absent : c.Steps n 0 seen' (f none) (g none))
    (present : ∀ a b, c.Same seen a b → c.Steps (n - 1) 0 seen' (f (some a)) (g (some b))) :
    c.Steps n 0 seen' (Parser.optional p >>= f) (Parser.optional q >>= g) := by
  intro l r along within
  have meets := steps l r along within
  have goesOn := absent l r along within
  rw [bind_apply, bind_apply, Parser.optional, Parser.optional]
  generalize p left l = o at meets
  generalize q right r = o' at meets
  cases meets with
  | done leads =>
    obtain ⟨same, along', index, offset⟩ := leads
    refine (present _ _ same _ _ along' (by omega)).imp ?_
    rintro a l₂ b r₂ ⟨sameResult, along₂, index₂, offset₂⟩
    exact ⟨sameResult, along₂, by omega, by omega⟩
  | @failed _ _ l' r' faults along' =>
    simp only [c.moved along along']
    by_cases moved : r'.movedFrom r = true
    · simp only [if_pos moved]
      exact .failed faults along'
    · simp only [if_neg moved]
      exact goesOn

/-- Choices run in lockstep if their alternatives do. -/
theorem choiceAfter {alternatives alternatives' : List (Parser α)} (label : Option String)
    (steps : List.Forall₂ (c.Steps n d seen) alternatives alternatives') (expected : List String) :
    c.Steps n d seen (choiceAfter label expected alternatives)
      (choiceAfter label expected alternatives') := by
  induction steps generalizing expected with
  | nil => exact fail _
  | @cons p q others others' first _ ih =>
    intro l r along within
    have meets := first l r along within
    simp only [Parser.choiceAfter]
    generalize p left l = o at meets
    generalize q right r = o' at meets
    cases meets with
    | done leads => exact .done leads
    | failed faults along' =>
      simp only [c.moved along along', faults.expected]
      split
      · exact .failed faults along'
      · exact ih _ l r along within

/-- Choices without a name run in lockstep if their alternatives do. -/
theorem choice {alternatives alternatives' : List (Parser α)}
    (steps : List.Forall₂ (c.Steps n d seen) alternatives alternatives') :
    c.Steps n d seen (choice alternatives) (choice alternatives') :=
  choiceAfter none steps []

/-- Choices with a name run in lockstep if their alternatives do. -/
theorem choiceNamed {alternatives alternatives' : List (Parser α)} (label : String)
    (steps : List.Forall₂ (c.Steps n d seen) alternatives alternatives') :
    c.Steps n d seen (choiceNamed label alternatives) (choiceNamed label alternatives') :=
  choiceAfter (some label) steps []

/-- Parsers with another expectation run in lockstep if they do without. -/
theorem expecting (label : String) (steps : c.Steps n d seen p q) :
    c.Steps n d seen (expecting label p) (expecting label q) := by
  intro l r along within
  have meets := steps l r along within
  rw [Parser.expecting, Parser.expecting]
  generalize p left l = o at meets
  generalize q right r = o' at meets
  cases meets with
  | done leads => exact .done leads
  | failed faults along' =>
    simp only [c.moved along along']
    split
    · exact .failed faults along'
    · obtain ⟨t, t', found, found'⟩ := c.next along'
      rw [fail_apply, fail_apply, found, found']
      exact .failed (.unexpected _ (c.sees along' found found').1) along'

/-- Parsers that a check commits to run in lockstep if they and the checks do. -/
theorem commitIf {check check' : Parser β} (checks : c.Steps n m seen' check check')
    (steps : c.Steps n d seen p q) : c.Steps n d seen (commitIf check p) (commitIf check' q) :=
  bind (lookAhead checks) fun _ _ _ => steps

end Correspondence.Steps

end Marginalia
