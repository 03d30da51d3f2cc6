import Marginalia.Proofs.Concatenation.Stopping

/-!
# Runs that carry over to a longer input

`Carries` compares a run on the shorter input of a sequel with one on the longer input from the same
cursor: what the short run does, short of being cut off, the long one does as well. Two runs can
part only where they pass over blanks, and then the short one can do nothing with the end of its
source; for each such place the long run has to be stopped by the declaration that begins there.
What may follow in a sequence is told by what is known behind its first part.
-/

namespace Marginalia

open Marginalia.Parser

variable {α β : Type}

/-! ## Comparing runs -/

/-- What is known behind two runs that succeed: they are at the same cursor, and whether a solid
token of the shorter input is ahead of it; or they may have parted. -/
inductive Outlook where
  | within (ahead : Bool)
  | loose

/-- How a parser goes about it: it reads a token first, it may succeed without reading one, or it
may pass over blanks first. -/
inductive Manner where
  | reads
  | stays
  | skips

/-- The manner of a sequence. -/
def Manner.andThen : Manner → Manner → Manner
  | reads, _ => reads
  | stays, later => later
  | skips, _ => skips

/-- A sequence whose first part passes over blanks first does so too. -/
theorem Manner.ne_skips_of_andThen {first second : Manner}
    (notSkips : first.andThen second ≠ .skips) : first ≠ .skips := by
  rintro rfl
  exact notSkips rfl

/-- A sequence of the two manners is of the third. -/
class Manner.Then (first second : Manner) (both : outParam Manner) : Prop where
  /-- It is the manner of the sequence. -/
  eq : first.andThen second = both

instance reads_then (later : Manner) : Manner.reads.Then later .reads := ⟨rfl⟩

instance stays_then (later : Manner) : Manner.stays.Then later later := ⟨rfl⟩

instance skips_then (later : Manner) : Manner.skips.Then later .skips := ⟨rfl⟩

/-- Nothing is passed over first. -/
class Manner.Firm (manner : Manner) : Prop where
  /-- The manner is not that of blanks. -/
  ne : manner ≠ .skips

instance reads_firm : Manner.reads.Firm := ⟨by simp⟩

instance stays_firm : Manner.stays.Firm := ⟨by simp⟩

/-- A token is read first. -/
class Manner.Reading (manner : Manner) : Prop where
  /-- The manner is that of tokens. -/
  eq : manner = .reads

instance reads_reading : Manner.reads.Reading := ⟨rfl⟩

namespace Sequel

variable (s : Sequel)

/-- Two failing runs may end at these cursors: at one cursor, or where they have parted behind
something that was read. -/
def Fails (manner : Manner) (start l r : Cursor) : Prop :=
  l = r ∨ (∃ levels, s.Parted levels l r) ∧ (manner ≠ .skips → start.index < s.count)

/-- The outcomes of a short and a long run from one cursor: unless the short one is cut off, both
succeed alike, or both have parted where this may happen, or both fail. -/
inductive Meets (after : Outlook) (manner : Manner) (start : Cursor)
    (Rejected : Cursor → Cursor → Prop) : Outcome α → Outcome α → Prop where
  | cut {interruption : Interruption} {l : Cursor} {outcome : Outcome α} :
      Meets after manner start Rejected (.failed (.interrupted interruption) l) outcome
  | done {value : α} {cursor : Cursor} (leads : s.Leads start cursor)
      (reads : manner = .reads → start.index < cursor.index)
      (ahead : after = .within true → s.Ahead cursor.index) :
      Meets after manner start Rejected (.done value cursor) (.done value cursor)
  | parted {value value' : α} {l r : Cursor} (loose : after = .loose)
      (parted : s.Parted start.indentation l r) (begun : manner ≠ .skips → start.index < s.count) :
      Meets after manner start Rejected (.done value l) (.done value' r)
  | rejected {error error' : ParseError} {l r : Cursor} (fails : Rejected l r) :
      Meets after manner start Rejected (.failed (.rejected error) l) (.failed (.rejected error') r)

variable {s} {outlook : Outlook} {first second : Manner} {start cursor : Cursor}
  {Rejected : Cursor → Cursor → Prop}

/-- Where failing runs may end in one manner they may end in any other one that tells no more. -/
theorem Fails.mono {l r : Cursor} (fails : s.Fails first start l r)
    (firm : second ≠ .skips → first ≠ .skips) : s.Fails second start l r :=
  Or.imp id (fun ⟨parted, begun⟩ => ⟨parted, fun notSkips => begun (firm notSkips)⟩) fails

/-- Outcomes that meet do so too where less is told of them. -/
theorem Meets.mono {less : Outlook} {Rejected' : Cursor → Cursor → Prop} {o o' : Outcome α}
    (meets : s.Meets outlook first start Rejected o o') (reads : second = .reads → first = .reads)
    (ahead : less = .within true → outlook = .within true)
    (loose : outlook = .loose → less = .loose ∧ (second ≠ .skips → first ≠ .skips))
    (fails : ∀ l r, Rejected l r → Rejected' l r) : s.Meets less second start Rejected' o o' := by
  cases meets with
  | cut => exact .cut
  | done leads moves known =>
    exact .done leads (fun same => moves (reads same)) fun same => known (ahead same)
  | parted isLoose parted begun =>
    obtain ⟨isLoose, firm⟩ := loose isLoose
    exact .parted isLoose parted fun notSkips => begun (firm notSkips)
  | rejected rejected => exact .rejected (fails _ _ rejected)

/-- Sequences meet if their first parts do and from there on the second ones. -/
theorem Meets.bind {middle : Outlook} {base : Cursor} {Rejected' : Cursor → Cursor → Prop}
    {p q : Parser α} {f g : α → Parser β}
    (begins : s.Meets middle first base Rejected (p s.short start) (q s.long start))
    (goesOn : ∀ value after, s.Leads base after → (first = .reads → base.index < after.index) →
      (middle = .within true → s.Ahead after.index) → s.Meets outlook second cursor Rejected'
      (f value s.short after) (g value s.long after)) (parts : middle = .loose →
      ∀ value value' l r, s.Parted base.indentation l r → (first ≠ .skips → base.index < s.count) →
      s.Meets outlook second cursor Rejected' (f value s.short l) (g value' s.long r))
    (fails : ∀ l r, Rejected l r → Rejected' l r) :
    s.Meets outlook second cursor Rejected' ((p >>= f) s.short start) ((q >>= g) s.long start) := by
  rw [bind_apply, bind_apply]
  generalize p s.short start = o at begins
  generalize q s.long start = o' at begins
  cases begins with
  | cut => exact .cut
  | done leads reads ahead => exact goesOn _ _ leads reads ahead
  | parted loose parted begun => exact parts loose _ _ _ _ parted begun
  | rejected rejected => exact .rejected (fails _ _ rejected)

/-- What meets from a later cursor meets from an earlier one. -/
theorem Meets.after {o o' : Outcome α} (leads : s.Leads start cursor)
    (reads : first = .reads → start.index < cursor.index)
    (meets : s.Meets outlook second cursor (s.Fails second cursor) o o') :
    s.Meets outlook (first.andThen second) start (s.Fails (first.andThen second) start) o o' := by
  have lower := leads.index
  have upper := leads.ready.index
  have begun (earlier : second ≠ .skips → cursor.index < s.count) :
      first.andThen second ≠ .skips → start.index < s.count := by
    intro notSkips
    match first, second with
    | .reads, _ => exact Nat.lt_of_lt_of_le (reads rfl) upper
    | .stays, .reads => exact Nat.lt_of_le_of_lt lower (earlier nofun)
    | .stays, .stays => exact Nat.lt_of_le_of_lt lower (earlier nofun)
    | .stays, .skips => exact absurd rfl notSkips
    | .skips, _ => exact absurd rfl notSkips
  cases meets with
  | cut => exact .cut
  | done further moves ahead =>
    have later := further.index
    refine .done (leads.trans further) (fun both => ?_) ahead
    match first, second with
    | .reads, _ => exact Nat.lt_of_lt_of_le (reads rfl) later
    | .stays, .reads => exact Nat.lt_of_le_of_lt lower (moves rfl)
  | parted loose parted earlier => exact .parted loose (leads.indentation ▸ parted) (begun earlier)
  | rejected fails => exact .rejected (fails.imp id fun ⟨apart, earlier⟩ => ⟨apart, begun earlier⟩)

/-- What meets from a later cursor meets from an earlier one, in the same manner. -/
theorem Meets.later {o o' : Outcome α}
    (meets : s.Meets outlook second cursor (s.Fails second cursor) o o')
    (leads : s.Leads start cursor) : s.Meets outlook second start (s.Fails second start) o o' := by
  show s.Meets outlook (Manner.stays.andThen second) start
    (s.Fails (Manner.stays.andThen second) start) o o'
  exact .after leads nofun meets

/-- Runs that are at one cursor need not be known to be. -/
theorem Meets.loosen {o o' : Outcome α} (meets : s.Meets outlook first start Rejected o o') :
    s.Meets .loose first start Rejected o o' :=
  meets.mono id nofun (fun _ => ⟨rfl, id⟩) fun _ _ => id

end Sequel

namespace Parser

variable {s : Sequel} {before between : Bool} {after : Outlook} {manner first second : Manner}

/-- What a run on the shorter input does carries over to the longer one. Whether a solid token is
ahead is told before the runs and behind them. -/
class Carries (s : Sequel) (before : Bool) (after : outParam Outlook) (manner : outParam Manner)
    (p q : Parser α) : Prop where
  /-- The runs from one cursor meet. -/
  meets {start : Cursor} (ready : s.Ready start) (ahead : before = true → s.Ahead start.index) :
    s.Meets after manner start (s.Fails manner start) (p s.short start) (q s.long start)

/-- What a run on the shorter input does carries over to the longer one, except for where failing
runs end. -/
class Tries (s : Sequel) (before : Bool) (after : outParam Bool) (p q : Parser α) : Prop where
  /-- The runs from one cursor meet, wherever they end. -/
  meets {start : Cursor} (ready : s.Ready start) (ahead : before = true → s.Ahead start.index) :
    s.Meets (.within after) .skips start (fun _ _ => True) (p s.short start) (q s.long start)

/-- Runs that have parted both fail, unless the short one is cut off. -/
class Misses (s : Sequel) (p q : Parser α) : Prop where
  /-- Both runs fail. -/
  misses {levels : List Nat} {l r : Cursor} (parted : s.Parted levels l r) :
    (∃ interruption after, p s.short l = .failed (.interrupted interruption) after) ∨
      (∃ error after, p s.short l = .failed (.rejected error) after) ∧
        ∃ error after, q s.long r = .failed (.rejected error) after

/-! ### Runs that have parted -/

/-- The short run has come to the end of its source. -/
theorem Stops.short {atDeclaration succeeds : Bool} {parser : Parser α}
    (stops : Stops atDeclaration succeeds parser) {levels : List Nat} {l r : Cursor}
    (parted : s.Parted levels l r) : (parser s.short l).Stays succeeds l := by
  rw [parted.left]
  exact stops.stays s.tokenAt?_count (.inl rfl)

/-- The next token of the long run is the one that it parted at. -/
theorem tokenAt?_of_parted {levels : List Nat} {l r : Cursor} (parted : s.Parted levels l r) :
    s.long.tokenAt? r.index = some s.opening := by
  rw [parted.right, Input.tokenAt?, s.opens]
  rfl

/-- The long run has come to the end of its source or to a declaration. -/
theorem Stops.long {succeeds : Bool} {parser : Parser α} (stops : Stops true succeeds parser)
    {levels : List Nat} {l r : Cursor} (parted : s.Parted levels l r) :
    (parser s.long r).Stays succeeds r :=
  stops.stays (tokenAt?_of_parted parted) (s.begins.imp id fun begins => ⟨rfl, begins.1⟩)

instance stops_misses (p q : Parser α) [left : Stops true false p] [right : Stops true false q] :
    Misses s p q where
  misses parted := by
    obtain ⟨_, same⟩ := rejected_of_stays (left.short parted)
    obtain ⟨_, same'⟩ := rejected_of_stays (right.long parted)
    exact .inr ⟨⟨_, _, same⟩, _, _, same'⟩

/-! ### Sequences -/

/-- One parser after another. -/
theorem Carries.bind {p q : Parser α} {f g : α → Parser β}
    (begins : Carries s before (.within between) first p q)
    (goesOn : ∀ value, Carries s between after second (f value) (g value)) :
    Carries s before after (first.andThen second) (p >>= f) (q >>= g) where
  meets ready ahead := by
    refine (begins.meets ready ahead).bind (fun value cursor leads reads known => ?_) nofun
      fun l r fails => fails.mono Manner.ne_skips_of_andThen
    refine .after leads reads ((goesOn value).meets leads.ready fun same => ?_)
    subst same
    exact known rfl

/-- One parser after another that may not have read anything. -/
theorem Carries.bindStays {p q : Parser α} {f g : α → Parser β}
    (begins : Carries s before (.within between) .stays p q)
    (goesOn : ∀ value, Carries s between after manner (f value) (g value)) :
    Carries s before after manner (p >>= f) (q >>= g) := .bind begins goesOn

/-- One parser after another that has read something. -/
theorem Carries.bindReads {p q : Parser α} {f g : α → Parser β}
    (begins : Carries s before (.within between) .reads p q)
    (goesOn : ∀ value, Carries s between after manner (f value) (g value)) :
    Carries s before after .reads (p >>= f) (q >>= g) := .bind begins goesOn

/-- One parser after another that may have parted the runs; what follows stops where they have
parted. -/
theorem Carries.bindLoose {p q : Parser α} {f g : α → Parser β}
    (begins : Carries s before .loose first p q)
    (goesOn : ∀ value, Carries s false after second (f value) (g value))
    (short : ∀ value, Stops true false (f value)) (long : ∀ value, Stops true false (g value)) :
    Carries s before after (first.andThen second) (p >>= f) (q >>= g) where
  meets ready ahead := by
    refine (begins.meets ready ahead).bind (fun value cursor leads reads _ => ?_)
      (fun _ value value' l r parted earlier => ?_) fun l r fails =>
      fails.mono Manner.ne_skips_of_andThen
    · exact .after leads reads ((goesOn value).meets leads.ready nofun)
    · obtain ⟨_, same⟩ := rejected_of_stays ((short value).short parted)
      obtain ⟨_, same'⟩ := rejected_of_stays ((long value').long parted)
      rw [same, same']
      exact .rejected (.inr ⟨⟨_, parted⟩,
        fun notSkips => earlier (Manner.ne_skips_of_andThen notSkips)⟩)

/-- One parser after another that may have parted the runs; what follows leaves them parted. -/
theorem Carries.bindParted {p q : Parser α} {f g : α → Parser β}
    (begins : Carries s before .loose first p q)
    (goesOn : ∀ value, Carries s false after second (f value) (g value))
    (short : ∀ value, Stops true true (f value)) (long : ∀ value, Stops true true (g value)) :
    Carries s before .loose (first.andThen second) (p >>= f) (q >>= g) where
  meets ready ahead := by
    refine (begins.meets ready ahead).bind (fun value cursor leads reads _ => ?_)
      (fun _ value value' l r parted earlier => ?_) fun l r fails =>
      fails.mono Manner.ne_skips_of_andThen
    · exact (Sequel.Meets.after leads reads ((goesOn value).meets leads.ready nofun)).loosen
    · obtain ⟨_, same⟩ := done_of_stays ((short value).short parted)
      obtain ⟨_, same'⟩ := done_of_stays ((long value').long parted)
      rw [same, same']
      exact .parted rfl parted fun notSkips => earlier (Manner.ne_skips_of_andThen notSkips)

instance bind_carries (p q : Parser α) (f g : α → Parser β)
    [begins : Carries s before (.within between) first p q]
    [goesOn : ∀ value, Carries s between after second (f value) (g value)]
    [both : first.Then second manner] : Carries s before after manner (p >>= f) (q >>= g) :=
  both.eq ▸ .bind begins goesOn

instance bindLoose_carries (p q : Parser α) (f g : α → Parser β)
    [begins : Carries s before .loose first p q] [short : ∀ value, Stops true false (f value)]
    [long : ∀ value, Stops true false (g value)]
    [goesOn : ∀ value, Carries s false after second (f value) (g value)]
    [both : first.Then second manner] : Carries s before after manner (p >>= f) (q >>= g) :=
  both.eq ▸ .bindLoose begins goesOn short long

instance bindParted_carries (p q : Parser α) (f g : α → Parser β)
    [begins : Carries s before .loose first p q] [short : ∀ value, Stops true true (f value)]
    [long : ∀ value, Stops true true (g value)]
    [goesOn : ∀ value, Carries s false after second (f value) (g value)]
    [both : first.Then second manner] : Carries s before .loose manner (p >>= f) (q >>= g) :=
  both.eq ▸ .bindParted begins goesOn short long

/-- A run that is always cut off. -/
instance interrupt_carries (interruption : Interruption) (q : Parser α) :
    Carries s before (.within false) .reads (interrupt interruption) q := ⟨fun _ _ => .cut⟩

/-- Runs that succeed without reading. -/
theorem Carries.of_stays {p q : Parser α}
    (stays : ∀ {start}, s.Ready start → (before = true → s.Ahead start.index) →
      ∃ value, p s.short start = .done value start ∧ q s.long start = .done value start) :
    Carries s before (.within before) .stays p q where
  meets ready ahead := by
    obtain ⟨value, same, same'⟩ := stays ready ahead
    rw [same, same']
    refine .done ready.leads nofun fun known => ahead ?_
    injection known

instance pure_carries (value : α) :
    Carries s before (.within before) .stays (pure value) (pure value) :=
  .of_stays fun _ _ => ⟨_, rfl, rfl⟩

instance position_carries : Carries s before (.within before) .stays position position :=
  .of_stays fun _ _ => ⟨_, rfl, rfl⟩

instance cursor_carries : Carries s before (.within before) .stays cursor cursor :=
  .of_stays fun _ _ => ⟨_, rfl, rfl⟩

instance reference_carries : Carries s before (.within before) .stays reference reference :=
  .of_stays fun _ _ => ⟨_, rfl, rfl⟩

/-- While a solid token is ahead, both runs are at the same token. -/
theorem lt_count_of_ahead {index : Nat} (ahead : s.Ahead index) : index < s.count := by
  obtain ⟨later, _, le, inside, -⟩ := ahead
  omega

instance peek_carries : Carries s true (.within true) .stays peek peek :=
  .of_stays fun {start} _ ahead => by
    obtain ⟨token, -, found, found'⟩ := s.tokenAt?_of_lt (lt_count_of_ahead (ahead rfl))
    exact ⟨token, by rw [peek_apply, found], by rw [peek_apply, found']⟩

/-- A failure at the next token leaves the cursor. -/
theorem fail_rejected (expected : List String) (input : Input) (start : Cursor) :
    ∃ error, (fail expected : Parser α) input start = .failed (.rejected error) start := by
  rw [fail_apply]
  cases input.tokenAt? start.index with
  | none => exact ⟨_, rfl⟩
  | some token => exact ⟨_, rfl⟩

instance fail_carries (expected expected' : List String) :
    Carries s before (.within false) .reads (fail expected : Parser α) (fail expected') where
  meets {start} ready ahead := by
    obtain ⟨_, same⟩ := fail_rejected expected s.short start
    obtain ⟨_, same'⟩ := fail_rejected expected' s.long start
    rw [same, same']
    exact .rejected (.inl rfl)

instance ite_carries (condition : Prop) [Decidable condition] (p p' q q' : Parser α)
    [Carries s before after manner p q] [Carries s before after manner p' q'] :
    Carries s before after manner (if condition then p else p') (if condition then q else q') := by
  split <;> infer_instance

/-- Tests of the next token for what is not the end of the source give the same. -/
theorem Carries.peekThat {property : Token → Bool}
    (notEnd : ∀ token, property token = true → token.kind ≠ .eof) :
    Carries s before (.within before) .stays (peekThat property) (peekThat property) :=
  .of_stays fun {start} ready _ => by
    by_cases inside : start.index < s.count
    · obtain ⟨token, -, found, found'⟩ := s.tokenAt?_of_lt inside
      exact ⟨_, by rw [peekThat_apply, found], by rw [peekThat_apply, found']⟩
    · -- The short run is at the end of its source, and the next token of the long run is not
      -- adjacent.
      have index : start.index = s.count := by
        have := ready.index
        omega
      obtain ⟨token, found⟩ := s.goesOn
      have apart : ¬ StartsAt token start := by
        intro starts
        have lt := s.behind token found
        have le := ready.offset
        rw [StartsAt] at starts
        omega
      have notHolds : property ⟨.eof, [], ⟨s.stop, s.stop⟩⟩ = false :=
        Bool.eq_false_iff.mpr fun holds => notEnd _ holds rfl
      refine ⟨false, ?_, ?_⟩
      · rw [peekThat_apply, index, s.tokenAt?_count]
        simp only [notHolds, Bool.and_false]
      · rw [peekThat_apply, index, found]
        simp only [decide_eq_false apart, Bool.false_and]

/-! ### Reading -/

/-- Reading a token that is neither the end of the source, nor opens or closes a `let`, nor declares
a fixity. -/
theorem Carries.satisfy {property : Token → Bool} {ahead : Bool} (label : String)
    (notEnd : ∀ token, property token = true → token.kind ≠ .eof)
    (level : ∀ token, property token = true → token.nesting = 0)
    (plain : ∀ token, property token = true → ¬ token.DeclaresFixity)
    (waits : ahead = true → ∀ token, property token = true → token.kind.waits = true) :
    Carries s before (.within ahead) .reads (satisfy property label) (satisfy property label) where
  meets {start} ready _ := by
    rcases ready.toAlong.satisfy label notEnd with ⟨token, inside, found, holds, run, run'⟩ |
      ⟨_, _, run, run'⟩
    · rw [run, run']
      refine .done (ready.past inside found (notEnd token holds) (level token holds)
          (plain token holds)) (fun _ => Nat.lt_succ_self _) fun known =>
        ready.closes.ahead inside found (plain token holds) (waits ?_ token holds)
      injection known
    · rw [run, run']
      exact .rejected (.inl rfl)

/-- A token that is no reserved word neither opens nor closes a `let` nor declares a fixity. -/
theorem Token.plain_of_kind {token : Token} (notWord : token.kind ≠ .keyword) :
    token.nesting = 0 ∧ ¬ token.DeclaresFixity := by
  refine ⟨Token.nesting_of_ne notWord, fun fixity => notWord fixity.1⟩

/-- Reading a token of a kind other than reserved words and the end of the source. -/
theorem token_carries {kind : TokenKind} {label : String} {ahead : Bool} (notEnd : kind ≠ .eof)
    (notWord : kind ≠ .keyword) (waits : ahead = true → kind.waits = true) :
    Carries s before (.within ahead) .reads (token kind label) (token kind label) := by
  have isKind : ∀ token : Token, (token.kind == kind) = true → token.kind = kind :=
    fun _ => beq_iff_eq.mp
  refine .satisfy label (fun token holds ends => notEnd ((isKind token holds).symm.trans ends))
    (fun token holds => (Token.plain_of_kind ?_).1) (fun token holds => (Token.plain_of_kind ?_).2)
    fun known token holds => ?_
  · rwa [isKind token holds]
  · rwa [isKind token holds]
  · rw [isKind token holds]
    exact waits known

section Tokens

variable (label : String)

instance operatorToken_carries :
    Carries s before (.within true) .reads (token .operator label) (token .operator label) :=
  token_carries (by simp) (by simp) fun _ => rfl

instance commaToken_carries :
    Carries s before (.within true) .reads (token .comma label) (token .comma label) :=
  token_carries (by simp) (by simp) fun _ => rfl

instance dotToken_carries :
    Carries s before (.within true) .reads (token .dot label) (token .dot label) :=
  token_carries (by simp) (by simp) fun _ => rfl

instance rangeToken_carries :
    Carries s before (.within true) .reads (token .range label) (token .range label) :=
  token_carries (by simp) (by simp) fun _ => rfl

instance colonToken_carries :
    Carries s before (.within true) .reads (token .colon label) (token .colon label) :=
  token_carries (by simp) (by simp) fun _ => rfl

instance equalsToken_carries :
    Carries s before (.within true) .reads (token .equals label) (token .equals label) :=
  token_carries (by simp) (by simp) fun _ => rfl

instance pipeToken_carries :
    Carries s before (.within true) .reads (token .pipe label) (token .pipe label) :=
  token_carries (by simp) (by simp) fun _ => rfl

instance arrowToken_carries :
    Carries s before (.within true) .reads (token .arrow label) (token .arrow label) :=
  token_carries (by simp) (by simp) fun _ => rfl

instance backslashToken_carries :
    Carries s before (.within true) .reads (token .backslash label) (token .backslash label) :=
  token_carries (by simp) (by simp) fun _ => rfl

instance openingToken_carries (kind : TokenKind) [opening : kind.Opening] :
    Carries s before (.within true) .reads (token kind label) (token kind label) :=
  token_carries opening.plain.1 opening.plain.2.1 fun _ => opening.plain.2.2

instance closingToken_carries (kind : TokenKind) [closing : kind.Closing] :
    Carries s before (.within false) .reads (token kind label) (token kind label) :=
  token_carries closing.plain.1 closing.plain.2.1 (by simp)

instance lowerIdentifierToken_carries :
    Carries s before (.within false) .reads (token .lowerIdentifier label)
      (token .lowerIdentifier label) :=
  token_carries (by simp) (by simp) (by simp)

instance upperIdentifierToken_carries :
    Carries s before (.within false) .reads (token .upperIdentifier label)
      (token .upperIdentifier label) :=
  token_carries (by simp) (by simp) (by simp)

instance numberToken_carries :
    Carries s before (.within false) .reads (token .number label) (token .number label) :=
  token_carries (by simp) (by simp) (by simp)

instance shaderToken_carries :
    Carries s before (.within false) .reads (token .shader label) (token .shader label) :=
  token_carries (by simp) (by simp) (by simp)

end Tokens

/-- Tests for a kind other than the end of the source give the same. -/
theorem peekIs_carries {kind : TokenKind} (notEnd : kind ≠ .eof) :
    Carries s before (.within before) .stays (peekIs kind) (peekIs kind) :=
  .peekThat fun _ holds ends => notEnd ((beq_iff_eq.mp holds).symm.trans ends)

instance peekIsComma_carries :
    Carries s before (.within before) .stays (peekIs .comma) (peekIs .comma) :=
  peekIs_carries (by simp)

instance peekIsOperator_carries :
    Carries s before (.within before) .stays (peekIs .operator) (peekIs .operator) :=
  peekIs_carries (by simp)

instance peekIsLowerIdentifier_carries :
    Carries s before (.within before) .stays (peekIs .lowerIdentifier) (peekIs .lowerIdentifier) :=
  peekIs_carries (by simp)

instance peekIsUpperIdentifier_carries :
    Carries s before (.within before) .stays (peekIs .upperIdentifier) (peekIs .upperIdentifier) :=
  peekIs_carries (by simp)

instance peekIsClosing_carries (kind : TokenKind) [closing : kind.Closing] :
    Carries s before (.within before) .stays (peekIs kind) (peekIs kind) :=
  peekIs_carries closing.plain.1

instance peekSpelledLower_carries (lexeme : Text) :
    Carries s before (.within before) .stays (peekSpelled .lowerIdentifier lexeme)
      (peekSpelled .lowerIdentifier lexeme) :=
  .peekThat fun token holds ends => by
    rw [(isSpelled_iff.mp holds).1] at ends
    cases ends

instance operator_carries (symbol : String) :
    Carries s before (.within true) .reads (operator symbol) (operator symbol) := by
  have plain : ∀ token : Token, (token.kind == .operator && token.lexeme == Text.ofString symbol) =
        true → token.nesting = 0 ∧ ¬ token.DeclaresFixity := by
    intro token holds
    refine Token.plain_of_kind ?_
    rw [(isSpelled_iff.mp holds).1]
    nofun
  refine .satisfy _ (fun token holds ends => ?_) (fun token holds => (plain token holds).1)
    (fun token holds => (plain token holds).2) fun _ token holds => ?_
  · rw [(isSpelled_iff.mp holds).1] at ends
    cases ends
  · rw [(isSpelled_iff.mp holds).1]
    rfl

/-- Reading a reserved word that neither opens nor closes a `let` nor declares a fixity. -/
theorem keyword_carries {word : String}
    (level : ∀ other ∈ ["let", "in"], Text.ofString word ≠ Text.ofString other)
    (plain : Grammar.fixityKeyword? (Text.ofString word) = none) :
    Carries s before (.within true) .reads (keyword word) (keyword word) := by
  refine .satisfy _ (fun token holds ends => ?_) (fun token holds => ?_)
    (fun token holds fixity => ?_) fun _ token holds => ?_
  · rw [(isSpelled_iff.mp holds).1] at ends
    cases ends
  · have notLet := level "let" (by decide)
    have notIn := level "in" (by decide)
    simp [Token.nesting, (isSpelled_iff.mp holds).2, notLet, notIn]
  · have found := fixity.2
    rw [(isSpelled_iff.mp holds).2, plain] at found
    cases found
  · rw [(isSpelled_iff.mp holds).1]
    rfl

instance if_carries : Carries s before (.within true) .reads (keyword "if") (keyword "if") :=
  keyword_carries (by decide) (by decide)

instance then_carries : Carries s before (.within true) .reads (keyword "then") (keyword "then") :=
  keyword_carries (by decide) (by decide)

instance else_carries : Carries s before (.within true) .reads (keyword "else") (keyword "else") :=
  keyword_carries (by decide) (by decide)

instance case_carries : Carries s before (.within true) .reads (keyword "case") (keyword "case") :=
  keyword_carries (by decide) (by decide)

instance of_carries : Carries s before (.within true) .reads (keyword "of") (keyword "of") :=
  keyword_carries (by decide) (by decide)

instance as_carries : Carries s before (.within true) .reads (keyword "as") (keyword "as") :=
  keyword_carries (by decide) (by decide)

instance exposing_carries :
    Carries s before (.within true) .reads (keyword "exposing") (keyword "exposing") :=
  keyword_carries (by decide) (by decide)

instance module_carries :
    Carries s before (.within true) .reads (keyword "module") (keyword "module") :=
  keyword_carries (by decide) (by decide)

instance import_carries :
    Carries s before (.within true) .reads (keyword "import") (keyword "import") :=
  keyword_carries (by decide) (by decide)

instance type_carries : Carries s before (.within true) .reads (keyword "type") (keyword "type") :=
  keyword_carries (by decide) (by decide)

end Parser

end Marginalia
