import Mathlib.Data.List.Forall2
import Marginalia.Proofs.Concatenation.Carrying

/-!
# Combinators carry over

What runs do on a shorter input carries over to a longer one through every combinator. Those that
ask whether something was consumed need a parser that passes over nothing before its first token:
such a parser has moved on both inputs or on none. An attempt has no such need, and is the place
where a part is tried that may turn out to be the next declaration.
-/

namespace Marginalia.Parser

variable {α β : Type} {s : Sequel} {before between : Bool} {after : Outlook}
  {manner first second : Manner}

/-! ## Blanks and indentation -/

instance whitespaceAhead_carries : Carries s true (.within true) .stays whitespace whitespace where
  meets ready ahead := by
    rcases ready.whitespace with ⟨_, _, run, run', leads, known⟩ | ⟨none, -⟩
    · rw [run, run']
      exact .done leads nofun fun _ => known
    · exact absurd (ahead rfl) none

instance whitespace_carries : Carries s false .loose .skips whitespace whitespace where
  meets ready _ := by
    rcases ready.whitespace with ⟨_, _, run, run', leads, known⟩ |
      ⟨-, _, _, _, _, run, run', parted⟩
    · rw [run, run']
      exact .done leads nofun nofun
    · rw [run, run']
      exact .parted rfl parted fun notSkips => absurd rfl notSkips

/-- A check of the column leaves the cursor, and fails alike. -/
theorem Carries.check {p : Parser Unit} (checks : ∀ input start, p input start = .done () start ∨
      ∃ error, p input start = .failed (.rejected error) start) (same : ∀ input input' start,
      p input start = .done () start → p input' start = .done () start) :
    Carries s before (.within before) .stays p p where
  meets {start} ready ahead := by
    rcases checks s.short start with done | ⟨_, rejected⟩
    · rw [done, same s.short s.long start done]
      refine .done ready.leads nofun fun known => ahead ?_
      injection known
    · rcases checks s.long start with done | ⟨_, rejected'⟩
      · rw [same s.long s.short start done] at rejected
        cases rejected
      · rw [rejected, rejected']
        exact .rejected (.inl rfl)

/-- A check of the indentation leaves the cursor. -/
theorem indented_cases (input : Input) (start : Cursor) :
    indented input start = .done () start ∨
    ∃ error, indented input start = .failed (.rejected error) start := by
  rw [indented_apply]
  split
  · exact .inr (fail_rejected _ _ _)
  · exact .inl rfl

/-- A check of the alignment leaves the cursor. -/
theorem aligned_cases (input : Input) (start : Cursor) :
    aligned input start = .done () start ∨
    ∃ error, aligned input start = .failed (.rejected error) start := by
  rw [aligned_apply]
  split
  · exact .inr (fail_rejected _ _ _)
  · exact .inl rfl

instance indented_carries : Carries s before (.within before) .stays indented indented := by
  refine .check indented_cases fun input input' start done => ?_
  rw [indented_apply] at done ⊢
  split at done
  · exact absurd done (fail_ne_done _ _ _ _ _)
  · rename_i past
    rw [if_neg past]

instance aligned_carries : Carries s before (.within before) .stays aligned aligned := by
  refine .check aligned_cases fun input input' start done => ?_
  rw [aligned_apply] at done ⊢
  split at done
  · exact absurd done (fail_ne_done _ _ _ _ _)
  · rename_i same
    rw [if_neg same]

/-! ## Combinators -/

/-- Two runs may begin under another reference of indentation. -/
theorem ready_inner {start : Cursor} (ready : s.Ready start) :
    s.Ready { start with indentation := start.position.column :: start.indentation } :=
  { ready with place := ready.place.reindent _, reference := ready.column }

/-- Runs under another reference of indentation meet if the runs under it do. -/
theorem withReference_meets {start : Cursor} {p q : Parser α} (ready : s.Ready start) (meets :
      s.Meets after manner { start with indentation := start.position.column :: start.indentation }
      (s.Fails manner { start with indentation := start.position.column :: start.indentation })
      (p s.short { start with indentation := start.position.column :: start.indentation })
      (q s.long { start with indentation := start.position.column :: start.indentation })) :
    s.Meets after manner start (s.Fails manner start) (withReference p s.short start)
      (withReference q s.long start) := by
  have outer {levels : List Nat} {l r : Cursor} (parted : s.Parted levels l r) :
      s.Parted start.indentation { l with indentation := start.indentation }
        { r with indentation := start.indentation } :=
    ⟨by rw [parted.left], by rw [parted.right], ready.reference⟩
  unfold Parser.withReference
  generalize p s.short _ = o at meets
  generalize q s.long _ = o' at meets
  cases meets with
  | cut => exact .cut
  | @done _ inside leads reads known =>
    have outside : s.Ready { inside with indentation := start.indentation } :=
      { leads.ready with place := leads.ready.place.reindent _, reference := ready.reference }
    exact .done ⟨outside, rfl, leads.index, leads.depth⟩ reads known
  | parted loose parted begun => exact .parted loose (outer parted) begun
  | rejected fails =>
    refine .rejected ?_
    rcases fails with rfl | ⟨⟨_, parted⟩, begun⟩
    · exact .inl rfl
    · exact .inr ⟨⟨_, outer parted⟩, begun⟩

section Combinators

variable (p q : Parser α)

instance trackNewline_carries [carries : Carries s before after manner p q] :
    Carries s before after manner (trackNewline p) (trackNewline q) where
  meets {start} ready ahead := by
    have meets := carries.meets ready ahead
    unfold trackNewline
    generalize p s.short start = o at meets
    generalize q s.long start = o' at meets
    cases meets with
    | cut => exact .cut
    | done leads reads known =>
      dsimp only
      rw [s.slice _ _ leads.ready.offset]
      exact .done leads reads known
    | parted loose parted begun => exact .parted loose parted begun
    | rejected fails => exact .rejected fails

instance withReference_carries [carries : Carries s before after manner p q] :
    Carries s before after manner (withReference p) (withReference q) where
  meets ready ahead := withReference_meets ready (carries.meets (ready_inner ready) ahead)

instance map_carries (change : α → β) [carries : Carries s before after manner p q] :
    Carries s before after manner (change <$> p) (change <$> q) where
  meets ready ahead := by
    refine (carries.meets ready ahead).bind (fun value cursor leads reads known => ?_)
      (fun loose value value' l r parted begun => ?_) fun _ _ => id
    · exact .done leads reads known
    · exact .parted loose parted begun

/-- Where a run has come to the end behind something that was read, it has moved. -/
theorem moved_of_parted {start l r : Cursor} {levels : List Nat} (parted : s.Parted levels l r)
    (begun : start.index < s.count) : l.movedFrom start = true ∧ r.movedFrom start = true := by
  have le := s.count_le
  have left : s.count ≠ start.index := by omega
  have right : s.first ≠ start.index := by omega
  rw [parted.left, parted.right]
  simp [Cursor.movedFrom, left, right]

/-- Failures of a firm parser have moved on both sides or on none. -/
theorem moved_eq {start l r : Cursor} [firm : manner.Firm] (fails : s.Fails manner start l r) :
    l.movedFrom start = r.movedFrom start := by
  rcases fails with rfl | ⟨⟨_, parted⟩, begun⟩
  · rfl
  · obtain ⟨left, right⟩ := moved_of_parted parted (begun firm.ne)
    rw [left, right]

/-- A part that may be absent. -/
theorem Carries.optional {p q : Parser α} {ahead : Bool}
    (carries : Carries s before (.within between) manner p q) [firm : manner.Firm]
    (known : ahead = true → before = true ∧ between = true) :
    Carries s before (.within ahead) .stays (optional p) (optional q) where
  meets {start} ready earlier := by
    have meets := carries.meets ready earlier
    unfold Parser.optional
    generalize p s.short start = o at meets
    generalize q s.long start = o' at meets
    cases meets with
    | cut => exact .cut
    | done leads reads later =>
      refine .done leads nofun fun same => later ?_
      injection same with same
      rw [(known same).2]
    | parted loose => cases loose
    | rejected fails =>
      dsimp only
      rw [moved_eq fails]
      split
      · exact .rejected (fails.mono fun _ => firm.ne)
      · refine .done ready.leads nofun fun same => earlier ?_
        injection same with same
        exact (known same).1

instance (priority := high) optionalAhead_carries
    [carries : Carries s true (.within true) manner p q] [manner.Firm] :
    Carries s true (.within true) .stays (optional p) (optional q) :=
  carries.optional fun _ => ⟨rfl, rfl⟩

instance optional_carries [carries : Carries s before (.within between) manner p q] [manner.Firm] :
    Carries s before (.within false) .stays (optional p) (optional q) := carries.optional nofun

/-- A part that may be absent, and what follows it either way. -/
theorem Carries.bindOptional {p q : Parser α} {f g : Option α → Parser β}
    (begins : Carries s before (.within between) manner p q) [firm : manner.Firm]
    (present : ∀ value, Carries s between after .stays (f (some value)) (g (some value)))
    (absent : Carries s before after .stays (f none) (g none)) :
    Carries s before after .stays (Parser.optional p >>= f) (Parser.optional q >>= g) where
  meets {start} ready earlier := by
    have meets := begins.meets ready earlier
    rw [bind_apply, bind_apply]
    unfold Parser.optional
    generalize p s.short start = o at meets
    generalize q s.long start = o' at meets
    cases meets with
    | cut => exact .cut
    | @done value _ leads _ known =>
      have further := (present value).meets leads.ready fun same => known (by rw [same])
      exact further.later leads
    | parted loose => cases loose
    | @rejected _ _ l r fails =>
      have same := moved_eq fails
      cases moved : r.movedFrom start with
      | true =>
        simp only [same, moved, if_true]
        exact .rejected (fails.mono fun _ => firm.ne)
      | false =>
        simp only [same, moved, Bool.false_eq_true, if_false]
        exact absent.meets ready earlier

instance expecting_carries (label : String)
    [carries : Carries s before after manner p q] [firm : manner.Firm] :
    Carries s before after manner (expecting label p) (expecting label q) where
  meets {start} ready ahead := by
    have meets := carries.meets ready ahead
    unfold expecting
    generalize p s.short start = o at meets
    generalize q s.long start = o' at meets
    cases meets with
    | cut => exact .cut
    | done leads reads known => exact .done leads reads known
    | parted loose parted begun => exact .parted loose parted begun
    | @rejected _ _ l r fails =>
      dsimp only
      rw [moved_eq fails]
      split
      · exact .rejected fails
      · obtain ⟨_, same⟩ := @fail_rejected α [label] s.short l
        obtain ⟨_, same'⟩ := @fail_rejected α [label] s.long r
        rw [same, same']
        exact .rejected fails

instance (priority := high) attempt_carries [carries : Carries s before after manner p q]
    [manner.Firm] : Carries s before after manner (attempt p) (attempt q) where
  meets {start} ready ahead := by
    have meets := carries.meets ready ahead
    unfold attempt
    generalize p s.short start = o at meets
    generalize q s.long start = o' at meets
    cases meets with
    | cut => exact .cut
    | done leads reads known => exact .done leads reads known
    | parted loose parted begun => exact .parted loose parted begun
    | rejected fails => exact .rejected (.inl rfl)

/-- An attempt may pass over blanks first. -/
instance attemptTries_carries [tries : Tries s before between p q] :
    Carries s before (.within between) .stays (attempt p) (attempt q) where
  meets {start} ready ahead := by
    have meets := tries.meets ready ahead
    unfold attempt
    generalize p s.short start = o at meets
    generalize q s.long start = o' at meets
    cases meets with
    | cut => exact .cut
    | done leads reads known => exact .done leads nofun known
    | parted loose => cases loose
    | rejected fails => exact .rejected (.inl rfl)

end Combinators

/-! ## Attempts -/

/-- What carries over carries over wherever failing runs end. -/
theorem Carries.tries {p q : Parser α} (carries : Carries s before (.within between) manner p q) :
    Tries s before between p q :=
  ⟨fun ready ahead => (carries.meets ready ahead).mono nofun id nofun fun _ _ _ => trivial⟩

instance (priority := low) carries_tries (p q : Parser α)
    [carries : Carries s before (.within between) manner p q] :
    Tries s before between p q := carries.tries

/-- Where runs end that fail after more was read does not matter. -/
theorem Sequel.Meets.anywhere {between : Bool} {start cursor : Cursor} {o o' : Outcome α}
    (leads : s.Leads start cursor)
    (meets : s.Meets (.within between) .skips cursor (fun _ _ => True) o o') :
    s.Meets (.within between) .skips start (fun _ _ => True) o o' := by
  cases meets with
  | cut => exact .cut
  | done further _ known => exact .done (leads.trans further) nofun known
  | parted loose => cases loose
  | rejected => exact .rejected trivial

instance bind_tries {later : Bool} (p q : Parser α) (f g : α → Parser β)
    [begins : Carries s before (.within between) manner p q]
    [goesOn : ∀ value, Tries s between later (f value) (g value)] :
    Tries s before later (p >>= f) (q >>= g) where
  meets ready ahead := by
    refine (begins.meets ready ahead).bind (fun value cursor leads _ known => ?_) nofun
      fun _ _ _ => trivial
    refine Sequel.Meets.anywhere leads ((goesOn value).meets leads.ready fun same => ?_)
    subst same
    exact known rfl

instance bindLoose_tries {later : Bool} (p q : Parser α) (f g : α → Parser β)
    [begins : Carries s before .loose manner p q]
    [goesOn : ∀ value, Tries s false later (f value) (g value)]
    [misses : ∀ value value', Misses s (f value) (g value')] :
    Tries s before later (p >>= f) (q >>= g) where
  meets ready ahead := by
    refine (begins.meets ready ahead).bind (fun value cursor leads _ _ => ?_)
      (fun _ value value' l r parted _ => ?_) fun _ _ _ => trivial
    · exact Sequel.Meets.anywhere leads ((goesOn value).meets leads.ready nofun)
    · rcases (misses value value').misses parted with ⟨_, _, same⟩ | ⟨⟨_, _, same⟩, _, _, same'⟩
      · rw [same]
        exact .cut
      · rw [same, same']
        exact .rejected trivial

/-- Nothing at a declaration is past the reference of indentation. -/
theorem indented_at_declaration {levels : List Nat} {l r : Cursor} (parted : s.Parted levels l r)
    (column : s.opening.span.start.column = 1) :
    ∃ error, indented s.long r = .failed (.rejected error) r := by
  have le : r.position.column ≤ r.reference := by
    rw [parted.right]
    exact Nat.le_trans (Nat.le_of_eq column) parted.reference
  rw [indented_apply, if_pos le]
  exact fail_rejected _ _ _

/-- What has to be past the reference is not at a declaration, nor can it be read at the end of a
source. -/
instance indented_misses (f g : Unit → Parser α) [short : ∀ checked, Barren (f checked)]
    [long : ∀ checked, Stops false false (g checked)] :
    Misses s (indented >>= f) (indented >>= g) where
  misses {levels l r} parted := by
    have right : ∃ error after, (indented >>= g) s.long r = .failed (.rejected error) after := by
      rw [bind_apply]
      rcases indented_cases s.long r with done | ⟨_, rejected⟩
      · rw [done]
        rcases s.begins with ends | ⟨-, column⟩
        · obtain ⟨_, same⟩ := rejected_of_stays
            ((long ()).stays (tokenAt?_of_parted parted) (.inl ends))
          exact ⟨_, _, same⟩
        · obtain ⟨_, rejected⟩ := indented_at_declaration parted column
          rw [rejected] at done
          cases done
      · rw [rejected]
        exact ⟨_, _, rfl⟩
    rw [bind_apply]
    rcases indented_cases s.short l with done | ⟨_, rejected⟩
    · rw [done]
      have found : s.short.tokenAt? l.index = some ⟨.eof, [], ⟨s.stop, s.stop⟩⟩ := by
        rw [parted.left]
        exact s.tokenAt?_count
      obtain ⟨failure, after, same⟩ := (short ()).barren found rfl
      dsimp only
      rw [same]
      cases failure with
      | interrupted => exact .inl ⟨_, _, rfl⟩
      | rejected => exact .inr ⟨⟨_, _, rfl⟩, right⟩
    · rw [rejected]
      exact .inr ⟨⟨_, _, rfl⟩, right⟩

/-! ## Choices -/

/-- Alternatives that all carry over and read a token first. -/
class AllCarry (s : Sequel) (before : Bool) (ps qs : List (Parser α)) : Prop where
  /-- Each of them does. -/
  each : List.Forall₂ (fun p q => ∃ ahead, Carries s before (.within ahead) .reads p q) ps qs

instance nil_allCarry : AllCarry s before ([] : List (Parser α)) [] := ⟨.nil⟩

instance cons_allCarry (p q : Parser α) (ps qs : List (Parser α))
    [begins : Carries s before (.within between) manner p q] [reading : manner.Reading]
    [others : AllCarry s before ps qs] : AllCarry s before (p :: ps) (q :: qs) := by
  obtain rfl := reading.eq
  exact ⟨.cons ⟨_, begins⟩ others.each⟩

instance append_allCarry (ps qs ps' qs' : List (Parser α)) [front : AllCarry s before ps qs]
    [rest : AllCarry s before ps' qs'] : AllCarry s before (ps ++ ps') (qs ++ qs') :=
  ⟨List.rel_append front.each rest.each⟩

/-- A choice carries over if each of its alternatives does. -/
theorem choiceAfter_carries (label : Option String) (expected expected' : List String)
    {ps qs : List (Parser α)}
    (each : List.Forall₂ (fun p q => ∃ ahead, Carries s before (.within ahead) .reads p q) ps qs) :
    Carries s before (.within false) .reads (choiceAfter label expected ps)
      (choiceAfter label expected' qs) where
  meets {start} ready ahead := by
    induction each generalizing expected expected' with
    | nil => exact (fail_carries _ _).meets ready ahead
    | @cons p q ps qs carries _ ih =>
      obtain ⟨_, carries⟩ := carries
      have meets := carries.meets ready ahead
      simp only [choiceAfter]
      generalize p s.short start = o at meets
      generalize q s.long start = o' at meets
      cases meets with
      | cut => exact .cut
      | done leads reads _ => exact .done leads reads (by simp)
      | parted loose => cases loose
      | rejected fails =>
        dsimp only
        rw [moved_eq fails]
        split
        · exact .rejected fails
        · exact ih _ _

instance choice_carries (ps qs : List (Parser α)) [all : AllCarry s before ps qs] :
    Carries s before (.within false) .reads (choice ps) (choice qs) :=
  choiceAfter_carries _ _ _ all.each

instance choiceNamed_carries (label : String) (ps qs : List (Parser α))
    [all : AllCarry s before ps qs] :
    Carries s before (.within false) .reads (choiceNamed label ps) (choiceNamed label qs) :=
  choiceAfter_carries _ _ _ all.each

/-! ## Sequences of a fixed form -/

instance located_carries (p q : Parser α) [carries : Carries s before after manner p q] :
    Carries s before after manner (located p) (located q) where
  meets {start} ready ahead := by
    have meets := carries.meets ready ahead
    have located_apply (parser : Parser α) (input : Input) : located parser input start =
        match parser input start with
        | .done value stop => .done ⟨⟨start.position, stop.position⟩, value⟩ stop
        | .failed failure stop => .failed failure stop := rfl
    rw [located_apply, located_apply]
    generalize p s.short start = o at meets
    generalize q s.long start = o' at meets
    cases meets with
    | cut => exact .cut
    | done leads reads known => exact .done leads reads known
    | parted loose parted begun => exact .parted loose parted begun
    | rejected fails => exact .rejected fails

/-- Looking ahead for what may follow blanks finds a token of the shorter input, or fails. -/
instance lookAhead_carries (p q : Parser α) [carries : Carries s false (.within between) manner p q]
    [short : Stops true false p] [long : Stops true false q] :
    Carries s before (.within true) .stays (lookAhead (whitespace >>= fun _ => p))
      (lookAhead (whitespace >>= fun _ => q)) where
  meets {start} ready _ := by
    rcases ready.whitespace with ⟨_, stop, run, run', leads, known⟩ |
      ⟨-, _, _, l, r, run, run', parted⟩
    · have ahead : s.Ahead start.index := by
        obtain ⟨later, token, le, rest⟩ := known
        exact ⟨later, token, Nat.le_trans leads.index le, rest⟩
      have meets := carries.meets leads.ready nofun
      simp only [lookAhead, bind_apply, run, run']
      generalize p s.short stop = o at meets
      generalize q s.long stop = o' at meets
      cases meets with
      | cut => exact .cut
      | done => exact .done ready.leads nofun fun _ => ahead
      | parted loose => cases loose
      | rejected => exact .rejected (.inl rfl)
    · obtain ⟨_, same⟩ := rejected_of_stays (short.short parted)
      obtain ⟨_, same'⟩ := rejected_of_stays (long.long parted)
      simp only [lookAhead, bind_apply, run, run', same, same']
      exact .rejected (.inl rfl)

/-! ## Repetition -/

/-- Bounds from the inputs make no difference if the one of the shorter input is less. -/
theorem Carries.bounded {p q : Nat → Parser α} (limit : Input → Nat)
    (le : limit s.short ≤ limit s.long) (carries : ∀ bound bound', bound ≤ bound' →
      Carries s before after manner (p bound) (q bound')) :
    Carries s before after manner (fun input => p (limit input) input)
      (fun input => q (limit input) input) :=
  ⟨fun ready ahead => (carries _ _ le).meets ready ahead⟩

/-- What is known behind a run need not be told. -/
theorem Carries.forget {p q : Parser α} (carries : Carries s before (.within between) manner p q) :
    Carries s before (.within false) manner p q :=
  ⟨fun ready ahead => (carries.meets ready ahead).mono id nofun nofun fun _ _ => id⟩

/-- That a token was read need not be told. -/
theorem Carries.toStays {p q : Parser α} (carries : Carries s before after .reads p q) :
    Carries s before after .stays p q where
  meets ready ahead := by
    have firm (_ : Manner.stays ≠ .skips) : Manner.reads ≠ .skips := nofun
    exact (carries.meets ready ahead).mono nofun id (fun loose => ⟨loose, firm⟩) fun _ _ fails =>
      fails.mono firm

/-- In which manner it is gone about need not be told. -/
theorem Carries.toSkips {p q : Parser α} (carries : Carries s before after manner p q) :
    Carries s before after .skips p q where
  meets ready ahead := by
    have firm (notSkips : Manner.skips ≠ .skips) : manner ≠ .skips := absurd rfl notSkips
    exact (carries.meets ready ahead).mono nofun id (fun loose => ⟨loose, firm⟩) fun _ _ fails =>
      fails.mono firm

/-- What needs no knowledge of what is ahead may have it. -/
theorem Carries.of_free {p q : Parser α} (carries : Carries s false after manner p q) :
    Carries s before after manner p q :=
  ⟨fun ready _ => carries.meets ready nofun⟩

/-- What the long run reads may be written in another way. -/
theorem Carries.rewrite {p q q' : Parser α} (carries : Carries s before after manner p q)
    (same : ∀ {cursor}, s.long.At cursor → q' s.long cursor = q s.long cursor) :
    Carries s before after manner p q' where
  meets {start} ready ahead := by
    rw [same ready.place]
    exact carries.meets ready ahead

/-- A round of a repetition, told from the outcome of what is repeated. -/
theorem valuesUpTo_apply (parser : Parser α) (bound : Nat) (input : Input) (start : Cursor) :
    valuesUpTo (some <$> parser) (bound + 1) input start =
      match parser input start with
      | .done value stop =>
        if stop.movedFrom start then (valuesUpTo (some <$> parser) bound >>= fun rest =>
            pure (value :: rest)) input stop
        else .done [value] stop
      | .failed (.rejected error) stop =>
        if stop.movedFrom start then .failed (.rejected error) stop else .done [] start
      | .failed failure stop => .failed failure stop := by
  rw [valuesUpTo, bind_apply]
  show ((optional (parser >>= fun value => pure (some value)) >>= _) input start) = _
  rw [bind_apply, optional, bind_apply]
  cases parser input start with
  | done value stop =>
    show (if stop.movedFrom start then _ else _ : Parser _) input stop = _
    dsimp only
    split <;> rfl
  | failed failure stop =>
    cases failure with
    | interrupted => rfl
    | rejected =>
      cases moved : stop.movedFrom start <;> simp only [moved] <;> rfl

/-- Repetitions under bounds meet, if what they repeat meets wherever it may begin. Where it may
part the runs it stops behind that. -/
theorem valuesUpTo_meets {p q : Parser α} {outlook : Outlook}
    [firm : manner.Firm] (Begins : Cursor → Prop)
    (onwards : ∀ {start cursor}, Begins start → s.Leads start cursor → Begins cursor)
    (item : ∀ {start}, s.Ready start → Begins start → s.Meets outlook manner start
      (s.Fails manner start) (p s.short start) (q s.long start)) (unknown : after ≠ .within true)
    (parting : outlook = .loose → after = .loose ∧ Stops true false p ∧ Stops true false q)
    (bound bound' : Nat) (le : bound ≤ bound') {start : Cursor} (ready : s.Ready start)
    (begins : Begins start) :
    s.Meets after .stays start (s.Fails .stays start) (valuesUpTo (some <$> p) bound s.short start)
      (valuesUpTo (some <$> q) bound' s.long start) := by
  induction bound generalizing bound' start with
  | zero => exact .cut
  | succ bound ih =>
    obtain ⟨bound', rfl⟩ : ∃ more, bound' = more + 1 := ⟨bound' - 1, by omega⟩
    have meets := item ready begins
    rw [valuesUpTo_apply, valuesUpTo_apply]
    generalize p s.short start = o at meets
    generalize q s.long start = o' at meets
    cases meets with
    | cut => exact .cut
    | @done value cursor leads reads known =>
      dsimp only
      split
      · have rest := ih bound' (Nat.le_of_succ_le_succ le) leads.ready (onwards begins leads)
        refine (rest.bind (fun more stop further _ known => ?_)
            (fun loose _ _ l r parted begun => ?_) fun _ _ => id).later leads
        · exact .done further nofun known
        · exact .parted loose parted begun
      · exact .done leads nofun fun same => absurd same unknown
    | @parted value value' l r loose parted begun =>
      -- Where the declaration begins neither run repeats anything more.
      obtain ⟨rfl, short, long⟩ := parting loose
      obtain ⟨moved, moved'⟩ := moved_of_parted parted (begun firm.ne)
      have repeats (bound : Nat) :
          Stops true true (valuesUpTo (some <$> p) (bound + 1)) := inferInstance
      have repeats' (bound : Nat) :
          Stops true true (valuesUpTo (some <$> q) (bound + 1)) := inferInstance
      simp only [moved, moved', if_true]
      cases bound with
      | zero => exact .cut
      | succ bound =>
        obtain ⟨bound', rfl⟩ : ∃ more, bound' = more + 1 := ⟨bound' - 1, by omega⟩
        obtain ⟨_, same⟩ := done_of_stays ((repeats bound).short parted)
        obtain ⟨_, same'⟩ := done_of_stays ((repeats' bound').long parted)
        rw [bind_apply, bind_apply, same, same']
        exact .parted rfl parted fun _ => begun firm.ne
    | @rejected _ _ l r fails =>
      dsimp only
      rw [moved_eq fails]
      split
      · exact .rejected (fails.mono fun _ => firm.ne)
      · exact .done ready.leads nofun fun same => absurd same unknown

instance many_carries (p q : Parser α) [carries : Carries s false (.within between) manner p q]
    [manner.Firm] : Carries s before (.within false) .stays (many p) (many q) where
  meets ready _ := by
    refine valuesUpTo_meets (fun _ => True) (fun _ _ => trivial)
      (fun ready _ => carries.meets ready (by simp)) ?_ (by simp) _ _ s.repetition_le ready trivial
    simp

/-- What is repeated may part the runs, if it stops where they have parted. -/
theorem manyLoose_carries (p q : Parser α) [carries : Carries s false .loose manner p q]
    [manner.Firm] [short : Stops true false p] [long : Stops true false q] :
    Carries s before .loose .stays (many p) (many q) where
  meets ready _ := by
    refine valuesUpTo_meets (fun _ => True) (fun _ _ => trivial) (fun ready _ =>
        carries.meets ready nofun) ?_ (fun _ => ⟨?_, short, long⟩) _ _ s.repetition_le ready trivial
    · nofun
    · rfl

/-! ## Inside a `let` -/

/-- Where a `let` is open, what a run does on the shorter input carries over to the longer one. -/
structure Deep (s : Sequel) (after : Outlook) (manner : Manner) (p q : Parser α) : Prop where
  /-- The runs from one cursor meet. -/
  meets {start : Cursor} (ready : s.Ready start) (deep : 0 < s.short.depth start.index) :
    s.Meets after manner start (s.Fails manner start) (p s.short start) (q s.long start)

/-- Something is ahead where a `let` is open. -/
theorem Carries.deep {p q : Parser α} (carries : Carries s true after manner p q) :
    Deep s after manner p q :=
  ⟨fun ready deep => carries.meets ready fun _ => Sequel.ahead_of_depth ready.index deep⟩

/-- One parser after another, inside a `let`. -/
theorem Deep.bind {p q : Parser α} {f g : α → Parser β}
    (begins : Deep s (.within between) first p q)
    (goesOn : ∀ value, Deep s after second (f value) (g value)) :
    Deep s after (first.andThen second) (p >>= f) (q >>= g) where
  meets ready deep := by
    refine (begins.meets ready deep).bind (fun value cursor leads reads _ => ?_) nofun
      fun l r fails => fails.mono Manner.ne_skips_of_andThen
    refine .after leads reads ((goesOn value).meets leads.ready ?_)
    rwa [leads.depth]

/-- A repetition, inside a `let`. -/
theorem Deep.many {p q : Parser α} [manner.Firm] (item : Deep s (.within between) manner p q) :
    Deep s (.within false) .stays (many p) (many q) where
  meets ready deep := by
    refine valuesUpTo_meets (fun cursor => 0 < s.short.depth cursor.index) (fun deep leads => ?_)
      (fun ready deep => item.meets ready deep) ?_ nofun _ _ s.repetition_le ready deep
    · rwa [leads.depth]
    · nofun

/-- Another reference of indentation, inside a `let`. -/
theorem Deep.withReference {p q : Parser α} (item : Deep s after manner p q) :
    Deep s after manner (withReference p) (withReference q) :=
  ⟨fun ready deep => withReference_meets ready (item.meets (ready_inner ready) deep)⟩

/-! ## Bracketed sequences -/

section Sequences

variable (close : TokenKind) [close.Closing] (p q : Parser α)
  [∀ before, Carries s before (.within false) .reads p q] (label : String)

/-- Items carry under every bound, and under one no smaller than it. -/
theorem itemsUpTo_carries (bound bound' : Nat) (le : bound ≤ bound') (comments : Comments) :
    Carries s before (.within false) .reads (itemsUpTo close p label bound comments)
      (itemsUpTo close q label bound' comments) := by
  induction bound generalizing before bound' comments with
  | zero =>
    unfold itemsUpTo
    exact ⟨fun _ _ => .cut⟩
  | succ bound ih =>
    obtain ⟨bound', rfl⟩ : ∃ more, bound' = more + 1 := ⟨bound' - 1, by omega⟩
    have again (before : Bool) (comments : Comments) : Carries s before (.within false) .reads
        (itemsUpTo close p label bound comments) (itemsUpTo close q label bound' comments) :=
      ih bound' (Nat.le_of_succ_le_succ le) comments
    unfold itemsUpTo
    infer_instance

instance separated_carries :
    Carries s true (.within false) .reads (separated close p label) (separated close q label) := by
  have items (before : Bool) (comments : Comments) : Carries s before (.within false) .reads
      (fun input => itemsUpTo close p label input.repetitionLimit comments input)
      (fun input => itemsUpTo close q label input.repetitionLimit comments input) :=
    .bounded Input.repetitionLimit s.repetition_le fun bound bound' le =>
      itemsUpTo_carries close p q label bound bound' le comments
  unfold separated
  refine .bindStays inferInstance fun comments => .bindStays inferInstance fun closes => ?_
  split
  · infer_instance
  · exact .bindReads (items _ comments) inferInstance

instance group_carries (openingKind : TokenKind) [openingKind.Opening] :
    Carries s before (.within false) .reads (group openingKind close p label)
      (group openingKind close q label) := by
  unfold group; infer_instance

end Sequences

end Marginalia.Parser
