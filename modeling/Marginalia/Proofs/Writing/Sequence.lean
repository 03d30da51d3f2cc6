import Marginalia.Proofs.Lockstep.Word
import Marginalia.Proofs.Writing.Reading

/-!
# Reading written sequences

How indentation, repetition, bracketed sequences and joined operands lead on over pieces on one
line. On one line everything behind the place of a reference stands to the right of it, so arguments
are always indented, and nothing further is ever aligned with what a block began with.
-/

namespace Marginalia

open Marginalia.Parser

variable {α β γ : Type} {input : Input}

/-! ## Indentation -/

section Indentation

variable {parser : Parser α} {next : Unit → Parser α} {before after : List Piece}
  {described : α → Prop}

/-- As a parser leads on, where the cursor stands at its reference. -/
def LeadsFlush (input : Input) (parser : Parser α) (before after : List Piece)
    (described : α → Prop) : Prop :=
  ∀ start, input.Ahead start before → start.reference = start.position.column → ∃ value stop,
    parser input start = .done value stop ∧ input.Reaches start stop after ∧ described value

/-- With its place as the reference a parser leads on as it does at its reference. -/
theorem LeadsFlush.withReference (leads : LeadsFlush input parser before after described) :
    Leads input (withReference parser) before after described := by
  intro start ahead
  have flush :
      input.Ahead { start with indentation := start.position.column :: start.indentation } before :=
    ⟨ahead.tokens, ahead.sound, Nat.le_refl _, ahead.oneLine⟩
  obtain ⟨value, stop, run, reaches, fits⟩ := leads _ flush rfl
  have right : start.position.column ≤ stop.position.column := reaches.column
  refine ⟨value, { stop with indentation := start.indentation }, ?_, ⟨⟨reaches.ahead.tokens,
    reaches.ahead.sound, Nat.le_trans ahead.reference right, ahead.oneLine⟩, rfl, right⟩, fits⟩
  rw [Parser.withReference, run]

/-- What is refused is refused wherever the reference is. -/
theorem Refuses.withReference (refuses : Refuses input parser before) :
    Refuses input (withReference parser) before := by
  intro start ahead
  have flush :
      input.Ahead { start with indentation := start.position.column :: start.indentation } before :=
    ⟨ahead.tokens, ahead.sound, Nat.le_refl _, ahead.oneLine⟩
  obtain ⟨error, run⟩ := refuses _ flush
  refine ⟨error, ?_⟩
  rw [Parser.withReference, run]

/-- A parser that leads on does so at its reference. -/
theorem Leads.flush (leads : Leads input parser before after described) :
    LeadsFlush input parser before after described :=
  fun start ahead _ => leads start ahead

/-- After its first parser at the reference a sequence leads on from there. -/
theorem LeadsFlush.bind {next : α → Parser β} {middle : List Piece} {others : β → Prop}
    (leads : LeadsFlush input parser before middle described)
    (goesOn : ∀ value, described value → Leads input (next value) middle after others) :
    LeadsFlush input (parser >>= next) before after others := by
  intro start ahead flush
  obtain ⟨value, between, run, reaches, fits⟩ := leads start ahead flush
  obtain ⟨result, stop, further, reaches', fits'⟩ := goesOn value fits between reaches.ahead
  exact ⟨result, stop, bind_done.mpr ⟨value, between, run, further⟩, reaches.trans reaches', fits'⟩

/-- After a value that is told without reading a sequence goes on at the reference. -/
theorem Tells.leadsFlush {told : Parser β} {next : β → Parser α} {value : β}
    (tells : Tells input told before value)
    (goesOn : LeadsFlush input (next value) before after described) :
    LeadsFlush input (told >>= next) before after described := by
  intro start ahead flush
  obtain ⟨result, stop, run, reaches, fits⟩ := goesOn start ahead flush
  exact ⟨result, stop, bind_done.mpr ⟨value, start, tells start ahead, run⟩, reaches, fits⟩

/-- An attempt leads on at the reference as its parser does. -/
theorem LeadsFlush.attempt (leads : LeadsFlush input parser before after described) :
    LeadsFlush input (attempt parser) before after described := by
  intro start ahead flush
  obtain ⟨value, stop, run, reaches, fits⟩ := leads start ahead flush
  exact ⟨value, stop, attempt_done.mpr run, reaches, fits⟩

/-- At the reference a parser is aligned. -/
theorem LeadsFlush.aligned (leads : LeadsFlush input (next ()) before after described) :
    LeadsFlush input (aligned >>= next) before after described := by
  intro start ahead flush
  obtain ⟨value, stop, run, reaches, fits⟩ := leads start ahead flush
  have test : Parser.aligned input start = .done () start := by
    rw [aligned_apply, if_neg (by simp [flush])]
  exact ⟨value, stop, bind_done.mpr ⟨(), start, test, run⟩, reaches, fits⟩

/-- What is refused is refused wherever it should be aligned. -/
theorem Refuses.aligned (refuses : Refuses input (next ()) before) :
    Refuses input (aligned >>= next) before := by
  intro start ahead
  rw [bind_apply, aligned_apply]
  by_cases misaligned : start.position.column ≠ start.reference
  · rw [if_pos misaligned]
    have failing : Refuses input
          (fail ["a line aligned at column " ++ toString start.reference] : Parser Unit) before :=
      fail_refuses _
    obtain ⟨error, run⟩ := failing start ahead
    exact ⟨error, by rw [run]⟩
  · rw [if_neg misaligned]
    exact refuses start ahead

/-- What is refused is refused wherever it should be indented. -/
theorem Refuses.indented (refuses : Refuses input (next ()) before) :
    Refuses input (indented >>= next) before := by
  intro start ahead
  rw [bind_apply, indented_apply]
  by_cases left : start.position.column ≤ start.reference
  · rw [if_pos left]
    have failing : Refuses input (fail ["an indented line (past column " ++
          toString start.reference ++ ")"] : Parser Unit) before :=
      fail_refuses _
    obtain ⟨error, run⟩ := failing start ahead
    exact ⟨error, by rw [run]⟩
  · rw [if_neg left]
    exact refuses start ahead

end Indentation

/-! ## Repetition -/

section Repetition

variable {item : Parser α} {pieces : β → List Piece} {seen : α → γ} {target : β → γ}
  {items : List β} {follows : List Piece → Prop} {rest : List Piece}

/-- A run over a piece moves the cursor. -/
theorem Input.Reaches.movedFrom {start stop : Cursor} {before after : List Piece}
    (ahead : input.Ahead start before) (reaches : input.Reaches start stop after)
    (less : after.length < before.length) : stop.movedFrom start = true := by
  have first := ahead.length
  have second := reaches.ahead.length
  have later : stop.index ≠ start.index := by omega
  simp [Cursor.movedFrom, later]

/-- Where no item is, there are no values. -/
theorem valuesUpTo_stops (stops : Refuses input item rest) (bound : Nat) :
    Tells input (valuesUpTo (some <$> item) (bound + 1)) rest [] := by
  intro start ahead
  have none : Tells input (optional (some <$> item)) rest none :=
    Refuses.optional (Refuses.bind stops)
  simp only [valuesUpTo, bind_apply, Parser.cursor, none start ahead, pure_apply]

/-- Where no item is, a repeated parser reads nothing. -/
theorem Refuses.many (stops : Refuses input item rest) : Tells input (many item) rest [] :=
  valuesUpTo_stops stops _

/-- A first value is followed by the others. -/
theorem valuesUpTo_goesOn {before middle : List Piece} {first : α → Prop} {others : List α → Prop}
    {bound : Nat} (leads : Leads input item before middle first)
    (less : middle.length < before.length)
    (further : Leads input (valuesUpTo (some <$> item) bound) middle rest others) :
    Leads input (valuesUpTo (some <$> item) (bound + 1)) before rest fun values =>
      ∃ value more, values = value :: more ∧ first value ∧ others more := by
  intro start ahead
  obtain ⟨value, between, run, reaches, fits⟩ := leads start ahead
  obtain ⟨more, stop, run', reaches', fits'⟩ := further between reaches.ahead
  have found : optional (some <$> item) input start = .done (some (some value)) between := by
    have inner : (some <$> item) input start = .done (some value) between :=
      bind_done.mpr ⟨value, between, run, rfl⟩
    rw [Parser.optional, inner]
  refine ⟨value :: more, stop, ?_, reaches.trans reaches', value, more, rfl, fits, fits'⟩
  simp only [valuesUpTo, bind_apply, Parser.cursor, found, reaches.movedFrom ahead less, if_true,
    run', pure_apply]

/-- Items are read one after the other, where each leads from what lies ahead of it to what lies
ahead of the others. -/
theorem valuesUpTo_leads {ahead : List β → List Piece} (each : ∀ b others, b :: others <:+ items →
      Leads input item (ahead (b :: others)) (ahead others) fun value => seen value = target b)
    (less : ∀ b others, b :: others <:+ items →
      (ahead others).length < (ahead (b :: others)).length) (stops : Refuses input item (ahead []))
    (bound : Nat) (enough : items.length < bound) :
    Leads input (valuesUpTo (some <$> item) bound) (ahead items) (ahead []) fun values =>
      values.map seen = items.map target := by
  induction items generalizing bound with
  | nil =>
    obtain ⟨bound, rfl⟩ := Nat.exists_eq_add_one.mpr enough
    intro start reached
    exact ⟨[], start, valuesUpTo_stops stops bound start reached, reached.stay, rfl⟩
  | cons b others ih =>
    obtain ⟨bound, rfl⟩ := Nat.exists_eq_add_one.mpr (Nat.lt_of_le_of_lt (Nat.zero_le _) enough)
    have inside : others <:+ b :: others := List.suffix_cons b others
    have further := ih (fun c more suffix => each c more (suffix.trans inside))
      (fun c more suffix => less c more (suffix.trans inside)) bound (by simpa using enough)
    have whole : b :: others <:+ b :: others := List.suffix_refl _
    refine (valuesUpTo_goesOn (each b others whole) (less b others whole) further).imp ?_
    rintro _ ⟨value, more, rfl, same, sameMore⟩
    rw [List.map_cons, List.map_cons, same, sameMore]

/-- Where every item takes something away, there are no more items than pieces. -/
theorem length_le_of_less {ahead : List β → List Piece} (less : ∀ b others, b :: others <:+ items →
      (ahead others).length < (ahead (b :: others)).length) :
    items.length ≤ (ahead items).length := by
  induction items with
  | nil => exact Nat.zero_le _
  | cons b others ih =>
    have inside : others <:+ b :: others := List.suffix_cons b others
    have further := ih fun c more suffix => less c more (suffix.trans inside)
    have first := less b others (List.suffix_refl _)
    rw [List.length_cons]
    omega

/-- A repeated parser reads items one after the other, each from what lies ahead of it to what lies
ahead of the others. -/
theorem Leads.repeated {ahead : List β → List Piece} (each : ∀ b others, b :: others <:+ items →
      Leads input item (ahead (b :: others)) (ahead others) fun value => seen value = target b)
    (less : ∀ b others, b :: others <:+ items → (ahead others).length <
      (ahead (b :: others)).length) (stops : Refuses input item (ahead [])) :
    Leads input (many item) (ahead items) (ahead []) fun values =>
      values.map seen = items.map target := by
  intro start reached
  have enough : items.length < input.repetitionLimit := by
    have length := reached.length
    have counted := length_le_of_less less
    rw [Input.repetitionLimit]
    omega
  exact valuesUpTo_leads each less stops input.repetitionLimit enough start reached

/-- A repeated parser reads items one after the other, up to where no further one is. -/
theorem Leads.many (goesOn : ∀ b ∈ items, ∀ after, follows (pieces b ++ after))
    (ends : follows rest) (each : ∀ b ∈ items, ∀ after, follows after →
      Leads input item (pieces b ++ after) after fun value => seen value = target b)
    (solid : ∀ b ∈ items, pieces b ≠ []) (stops : Refuses input item rest) :
    Leads input (many item) (items.flatMap pieces ++ rest) rest fun values =>
      values.map seen = items.map target := by
  have next : ∀ b others, b :: others <:+ items → (b :: others).flatMap pieces ++ rest =
      pieces b ++ (others.flatMap pieces ++ rest) := by
    intro b others _
    rw [List.flatMap_cons, List.append_assoc]
  refine @Leads.repeated _ _ _ input item seen target items
    (fun items => items.flatMap pieces ++ rest) ?_ ?_ stops
  · intro b others suffix
    have tail : follows (others.flatMap pieces ++ rest) := by
      cases others with
      | nil => exact ends
      | cons c more =>
        rw [List.flatMap_cons, List.append_assoc]
        exact goesOn c (suffix.subset (.tail _ (.head _))) _
    rw [next b others suffix]
    exact each b (suffix.subset (.head _)) _ tail
  · intro b others suffix
    have some := List.length_pos_iff.mpr (solid b (suffix.subset (.head _)))
    rw [next b others suffix, @List.length_append _ (pieces b)]
    omega

end Repetition

/-! ## Arguments -/

/-- The first piece, if there is one, is not joined to what is before it. -/
def Piece.Apart (pieces : List Piece) : Prop := ∀ piece ∈ pieces.head?, piece.joined = false

/-- Pieces begin as the first ones of them do. -/
theorem Piece.Apart.append {first : List Piece} (apart : Apart first) (solid : first ≠ [])
    (rest : List Piece) : Apart (first ++ rest) := by
  cases first with
  | nil => exact absurd rfl solid
  | cons piece others => exact apart

/-- A value without comments. -/
def Commented.alone (value : α) : Commented α := ⟨[], value, []⟩

section Arguments

variable {item : Parser α} {before after : List Piece} {described : α → Prop}

open Piece (Apart)

/-- Behind a blank on one line everything is indented. -/
theorem whitespace_indents {next : Comments → Unit → Parser α}
    (apart : Apart before) (solid : before ≠ [])
    (leads : Leads input (next [] ()) (Piece.joinFirst before) after described) :
    Leads input (whitespace >>= fun comments => indented >>= next comments) before after
      described := by
  intro start ahead
  obtain ⟨value, stop, run, reaches, fits⟩ := leads _ ahead.reaches_front.ahead
  have right : start.reference < (Piece.front start.position before).column := by
    have reference := ahead.reference
    cases before with
    | nil => exact absurd rfl solid
    | cons piece rest =>
      have loose := apart piece rfl
      have moved : (piece.start start.position).column = start.position.column + 1 := by
        rw [Piece.start, loose]
        rfl
      rw [Piece.front, moved]
      omega
  refine ⟨value, stop, ?_, ahead.reaches_front.trans reaches, fits⟩
  have test : indented input { start with position := Piece.front start.position before } =
      .done () { start with position := Piece.front start.position before } := by
    rw [indented_apply]
    exact if_neg (Nat.not_le_of_lt right)
  rw [bind_apply, ahead.whitespace]
  simp only [bind_apply, test, run]

/-- A spaced item is read as the item. -/
theorem spacedItem_leads (apart : Apart before) (solid : before ≠ [])
    (leads : Leads input item (Piece.joinFirst before) after described) :
    Leads input (Grammar.spacedItem item) before after fun found =>
      ∃ value, found = .alone value ∧ described value := by
  refine Leads.attempt (whitespace_indents apart solid ?_)
  apply leads.bind
  intro value fits
  exact .pure ⟨value, rfl, fits⟩

/-- A spaced item is refused where the item is. -/
theorem spacedItem_refuses (refuses : Refuses input item (Piece.joinFirst before)) :
    Refuses input (Grammar.spacedItem item) before := by
  refine Fails.attempt (whitespace_leads.fails fun comments _ => ?_)
  exact (Refuses.indented refuses.bind).fails

/-- Apart from what is before it, an argument is read as a spaced item. -/
theorem spacedArgument_apply (item : Parser α) (apart : Apart before) {start : Cursor}
    (ahead : input.Ahead start before) :
    Grammar.spacedArgument item input start = Grammar.spacedItem item input start := by
  have unspaced : (((Piece.front start.position before).offset == start.position.offset) &&
        (decide (StartsAt (Piece.next start.position before)
        { start with position := Piece.front start.position before }) && Grammar.isMinus
        (Piece.next start.position before))) = false := by
    cases before with
    | nil => exact Bool.and_false _ ▸ congrArg _ (Bool.and_false _)
    | cons piece rest =>
      have notStart := Input.Ahead.not_startsAt (apart piece rfl) start
      have offset : ((piece.start start.position).offset == start.position.offset) = false :=
        beq_eq_false_iff_ne.mpr notStart
      rw [Piece.front, offset, Bool.false_and]
  have next := ahead.tokenAt?
  rw [Grammar.spacedArgument_eq]
  simp only [Grammar.spacedItem, attempt, bind_apply, position, ahead.whitespace, peekThat_apply,
    next, unspaced]
  rfl

/-- An argument apart from what is before it is read as the item. -/
theorem spacedArgument_leads (apart : Apart before) (solid : before ≠ [])
    (leads : Leads input item (Piece.joinFirst before) after described) :
    Leads input (Grammar.spacedArgument item) before after fun found =>
      ∃ value, found = .alone value ∧ described value := by
  intro start ahead
  rw [spacedArgument_apply item apart ahead]
  exact spacedItem_leads apart solid leads start ahead

/-- An argument apart from what is before it is refused where the item is. -/
theorem spacedArgument_refuses (apart : Apart before)
    (refuses : Refuses input item (Piece.joinFirst before)) :
    Refuses input (Grammar.spacedArgument item) before := by
  intro start ahead
  rw [spacedArgument_apply item apart ahead]
  exact spacedItem_refuses refuses start ahead

variable {pieces : β → List Piece} {seen : α → γ} {target : β → γ} {items : List β}
  {rest : List Piece}

/-- Spaced items are read one after the other, up to where no further one is. -/
theorem spaced_leads (apart : ∀ b ∈ items, Apart (pieces b)) (solid : ∀ b ∈ items, pieces b ≠ [])
    (each : ∀ b ∈ items, ∀ after, Apart after → Leads input item
      (Piece.joinFirst (pieces b ++ after)) after fun value => seen value = target b)
    (ends : Apart rest) (stops : Refuses input item (Piece.joinFirst rest)) :
    Leads input (Grammar.spaced item) (items.flatMap pieces ++ rest) rest fun found =>
      found.map (Commented.map seen) = items.map fun b => .alone (target b) := by
  apply Leads.many (fun b member after => (apart b member).append (solid b member) after) ends
  · intro b member after further
    have loose := (apart b member).append (solid b member) after
    refine (spacedItem_leads loose (by simp [solid b member]) (each b member after further)).imp ?_
    rintro _ ⟨value, rfl, same⟩
    rw [← same]
    rfl
  · exact solid
  · exact spacedItem_refuses stops

/-- Arguments are read one after the other, without line breaks, up to where no further one is. -/
theorem arguments_leads (apart : ∀ b ∈ items, Apart (pieces b)) (solid : ∀ b ∈ items, pieces b ≠ [])
    (each : ∀ b ∈ items, ∀ after, Apart after → Leads input item
      (Piece.joinFirst (pieces b ++ after)) after fun value => seen value = target b)
    (ends : Apart rest) (stops : Refuses input item (Piece.joinFirst rest)) :
    Leads input (many (trackNewline (Grammar.spacedArgument item)))
      (items.flatMap pieces ++ rest) rest fun found =>
      (found.map (·.1)).map (Commented.map seen) = (items.map fun b => .alone (target b)) ∧
        ∀ argument ∈ found, argument.2 = false := by
  have read : Leads input (many (trackNewline (Grammar.spacedArgument item)))
      (items.flatMap pieces ++ rest) rest fun found =>
      found.map (fun argument => (argument.1.map seen, argument.2)) = items.map fun b =>
        (.alone (target b), false) := by
    apply Leads.many (fun b member after => (apart b member).append (solid b member) after) ends
    · intro b member after further
      have loose := (apart b member).append (solid b member) after
      refine (spacedArgument_leads loose (by simp [solid b member])
          (each b member after further)).trackNewline.imp ?_
      rintro _ ⟨_, rfl, value, rfl, same⟩
      rw [← same]
      rfl
    · exact solid
    · exact (spacedArgument_refuses ends stops).trackNewline
  refine read.imp fun found same => ⟨?_, fun argument member => ?_⟩
  · have values := congrArg (List.map Prod.fst) same
    rw [List.map_map, List.map_map] at values
    rw [List.map_map]
    exact values
  · have inItems : (argument.1.map seen, argument.2) ∈ found.map fun argument =>
        (argument.1.map seen, argument.2) :=
      List.mem_map.mpr ⟨argument, member, rfl⟩
    rw [same] at inItems
    obtain ⟨b, -, pair⟩ := List.mem_map.mp inItems
    exact (Prod.mk.inj pair).2.symm

end Arguments

/-! ## Bracketed sequences -/

namespace Piece

/-- Joining the first piece adds no pieces. -/
theorem length_joinFirst (pieces : List Piece) : (joinFirst pieces).length = pieces.length := by
  cases pieces <;> rfl

/-- Parts with a piece between each two of them. -/
def between (separator : Piece) : List (List Piece) → List Piece
  | [] => []
  | first :: rest => first ++ rest.flatMap (separator :: ·)

/-- Parts with commas between them. -/
def listed (parts : List (List Piece)) : List Piece := between (mark .comma) parts

/-- Pieces between an opening and a closing mark. -/
def enclosed (opening closing : TokenKind) (pieces : List Piece) : List Piece :=
  mark opening :: (pieces ++ [mark closing])

end Piece

section Groups

variable {item : Parser α} {pieces : β → List Piece} {seen : α → γ} {target : β → γ}
  {items : List β} {rest : List Piece} {opening close : TokenKind} {label : String}

/-- A mark directly ahead is read. -/
theorem mark_leads (kind : TokenKind) :
    Leads input (token kind label) (Piece.joinFirst (.mark kind :: rest)) rest fun _ => True :=
  (token_leads rfl).imp fun _ _ => trivial

/-- Items with commas between them are read up to the closing mark. -/
theorem itemsUpTo_leads {b : β} {others : List β} (notComma : close ≠ .comma)
    (each : ∀ c ∈ b :: others, ∀ kind more, kind = .comma ∨ kind = close →
      Leads input item (Piece.joinFirst (pieces c ++ .mark kind :: more)) (.mark kind :: more)
      fun value => seen value = target c) (bound : Nat) (enough : others.length < bound) :
    Leads input (itemsUpTo close item label bound []) (Piece.joinFirst
      (Piece.listed ((b :: others).map pieces) ++ .mark close :: rest)) rest fun found =>
        found.map (Commented.map seen) = (b :: others).map fun c => .alone (target c) := by
  induction others generalizing b bound with
  | nil =>
    obtain ⟨bound, rfl⟩ := Nat.exists_eq_add_one.mpr enough
    have only : Piece.listed ([b].map pieces) = pieces b := List.append_nil _
    rw [only, itemsUpTo]
    apply (each b (.head _) close rest (.inr rfl)).bind
    intro value same
    apply whitespace_leads.bind
    rintro _ rfl
    refine (peekIs_tells_false (by decide) ?_).leads ?_
    · rintro piece first -
      obtain rfl := Option.some.inj first
      exact beq_eq_false_iff_ne.mpr notComma
    · apply (mark_leads close).bind
      intro _ _
      refine .pure ?_
      rw [List.map_cons, List.map_nil, Commented.map, same]
      rfl
  | cons c others ih =>
    obtain ⟨bound, rfl⟩ := Nat.exists_eq_add_one.mpr (Nat.lt_of_le_of_lt (Nat.zero_le _) enough)
    have more : Piece.listed ((b :: c :: others).map pieces) ++ .mark close :: rest = pieces b ++
          .mark .comma :: (Piece.listed ((c :: others).map pieces) ++ .mark close :: rest) := by
      simp [Piece.listed, Piece.between]
    have further := ih (b := c) (fun d member => each d (.tail _ member)) bound
      (by simpa using enough)
    rw [more, itemsUpTo]
    apply (each b (.head _) .comma _ (.inl rfl)).bind
    intro value same
    apply whitespace_leads.bind
    rintro _ rfl
    refine (peekIs_tells_true rfl).leads ?_
    apply (mark_leads .comma).bind
    intro _ _
    apply whitespace_leads.bind
    rintro _ rfl
    apply further.bind
    intro values sameValues
    refine .pure ?_
    rw [List.map_cons, sameValues, Commented.map, same]
    rfl

/-- A sequence is read up to its closing mark. -/
theorem separated_leads (notComma : close ≠ .comma) (notEnd : close ≠ .eof)
    (opens : ∀ b ∈ items, ∃ first more, pieces b = first :: more ∧ first.kind ≠ close)
    (each : ∀ c ∈ items, ∀ kind more, kind = .comma ∨ kind = close →
      Leads input item (Piece.joinFirst (pieces c ++ .mark kind :: more)) (.mark kind :: more)
      fun value => seen value = target c) :
    Leads input (separated close item label)
      (Piece.listed (items.map pieces) ++ .mark close :: rest) rest fun found =>
      found.items.map (Commented.map seen) = (items.map fun c => .alone (target c)) ∧
        found.trailing = [] := by
  apply whitespace_leads.bind
  rintro _ rfl
  cases items with
  | nil =>
    refine (peekIs_tells_true rfl).leads ?_
    apply (mark_leads close).bind
    intro _ _
    exact .pure ⟨rfl, rfl⟩
  | cons b others =>
    obtain ⟨first, more, begins, notClose⟩ := opens b (.head _)
    refine (peekIs_tells_false notEnd ?_).leads ?_
    · rintro piece isFirst -
      rw [List.map_cons, Piece.listed, Piece.between, begins] at isFirst
      obtain rfl := Option.some.inj isFirst
      exact beq_eq_false_iff_ne.mpr notClose
    · intro start ahead
      have enough : others.length < input.repetitionLimit := by
        have length := ahead.length
        have counted : (others.map pieces).length ≤
              ((others.map pieces).flatMap (Piece.mark .comma :: ·)).length := by
          refine @length_le_of_less _ (others.map pieces) (·.flatMap (Piece.mark .comma :: ·))
            fun part more _ => ?_
          rw [List.flatMap_cons, List.cons_append, List.length_cons, List.length_append]
          omega
        rw [Piece.length_joinFirst, List.map_cons, Piece.listed, Piece.between, List.length_append,
          List.length_append] at length
        rw [List.length_map] at counted
        rw [Input.repetitionLimit]
        omega
      obtain ⟨value, stop, run, reaches, same⟩ :=
        itemsUpTo_leads notComma each input.repetitionLimit enough start ahead
      exact ⟨⟨value, []⟩, stop, bind_done.mpr ⟨value, stop, run, rfl⟩, reaches, same, rfl⟩

/-- A sequence fails where its closing mark is not and its first item is refused. -/
theorem separated_fails {before : List Piece} (notEnd : close ≠ .eof)
    (notClose : Avoids (·.kind == close) (Piece.joinFirst before))
    (refuses : Refuses input item (Piece.joinFirst before)) :
    Fails input (separated close item label) before := by
  apply whitespace_leads.fails
  rintro _ rfl
  have noItems : Refuses input (fun input => itemsUpTo close item label input.repetitionLimit
        [] input) (Piece.joinFirst before) := fun start ahead => refuses.bind start ahead
  exact ((peekIs_tells_false notEnd notClose).refuses noItems.bind).fails

/-- A sequence in brackets is read with them, and without line breaks. -/
theorem group_leads (notComma : close ≠ .comma) (notEnd : close ≠ .eof)
    (opens : ∀ b ∈ items, ∃ first more, pieces b = first :: more ∧ first.kind ≠ close)
    (each : ∀ c ∈ items, ∀ kind more, kind = .comma ∨ kind = close →
      Leads input item (Piece.joinFirst (pieces c ++ .mark kind :: more)) (.mark kind :: more)
      fun value => seen value = target c) :
    Leads input (group opening close item label) (Piece.joinFirst
      (Piece.enclosed opening close (Piece.listed (items.map pieces)) ++ rest)) rest fun found =>
        ∃ items', found = (⟨items', []⟩, false) ∧
          items'.map (Commented.map seen) = items.map fun c => .alone (target c) := by
  rw [Piece.enclosed, List.cons_append, List.append_assoc]
  refine Leads.imp (Leads.trackNewline
      ((mark_leads opening).bind fun _ _ => separated_leads notComma notEnd opens each)) ?_
  rintro _ ⟨⟨items', trailing⟩, rfl, same, rfl⟩
  exact ⟨items', rfl, same⟩

end Groups

/-! ## Joined operands -/

section Joined

open Grammar

variable {operand : Parser α} {connective : Parser Token} {mark : Piece} {pieces : β → List Piece}
  {seen : α → γ} {target : β → γ} {b : β} {others : List β} {rest : List Piece}
  {follows : List Piece → Prop}

/-- Without comments around the connectives the operands have none. -/
theorem operands_alone {links : List (Link α)} (same : links.map (fun link => (link.before,
      link.after, seen link.operand)) = others.map fun c => ([], [], target c)) (current : α) :
    ((Link.operands [] current links).1.map seen,
      (Link.operands [] current links).2.map (Commented.map seen)) =
      (Commented.alone (seen current), others.map fun c => .alone (target c)) := by
  induction links generalizing others current with
  | nil =>
    obtain rfl := List.map_eq_nil_iff.mp same.symm
    rfl
  | cons link links ih =>
    obtain ⟨before, after, operand⟩ := link
    cases others with
    | nil => cases same
    | cons c others =>
      obtain ⟨first, further⟩ := List.cons.inj same
      simp only [Prod.mk.injEq] at first
      obtain ⟨rfl, rfl, value⟩ := first
      obtain ⟨second, more⟩ := Prod.mk.inj (ih further operand)
      rw [Link.operands, List.map_cons, List.map_cons, second, more, value]
      rfl

/-- A connective and the operand behind it are read. -/
theorem link_leads {before after : List Piece} {described : α → Prop}
    (connects : ∀ more, Leads input connective (Piece.joinFirst (mark :: more)) more fun _ => True)
    (leads : Leads input operand (Piece.joinFirst before) after described) :
    Leads input (link connective operand) (mark :: before) after fun found =>
      ∃ value, found = ⟨[], [], value⟩ ∧ described value := by
  apply Leads.attempt
  apply whitespace_leads.bind
  rintro _ rfl
  apply (connects before).bind
  intro _ _
  apply whitespace_leads.bind
  rintro _ rfl
  apply leads.bind
  intro value fits
  exact .pure ⟨value, rfl, fits⟩

/-- No operand follows where no connective is. -/
theorem link_refuses {before : List Piece}
    (refuses : Refuses input connective (Piece.joinFirst before)) :
    Refuses input (link connective operand) before :=
  Fails.attempt (whitespace_leads.fails fun _ _ => refuses.bind.fails)

/-- Operands with connectives between them are read, up to where no connective is. -/
theorem joined_leads
    (connects : ∀ more, Leads input connective (Piece.joinFirst (mark :: more)) more fun _ => True)
    (continues : ∀ more, follows (mark :: more)) (ends : follows rest)
    (each : ∀ c ∈ b :: others, ∀ after, follows after → Leads input operand
      (Piece.joinFirst (pieces c ++ after)) after fun value => seen value = target c)
    (stops : Refuses input connective (Piece.joinFirst rest)) :
    Leads input (joined connective operand)
      (Piece.joinFirst (Piece.between mark ((b :: others).map pieces) ++ rest)) rest fun found =>
      (found.1.map seen, found.2.map (Commented.map seen)) = (Commented.alone (target b),
      others.map fun c => .alone (target c)) := by
  have shape : Piece.between mark ((b :: others).map pieces) ++ rest =
      pieces b ++ (others.flatMap (fun c => mark :: pieces c) ++ rest) := by
    rw [List.map_cons, Piece.between, List.append_assoc, List.flatMap_map]
  have further : follows (others.flatMap (fun c => mark :: pieces c) ++ rest) := by
    cases others with
    | nil => exact ends
    | cons c others => exact continues _
  have links : Leads input (many (link connective operand))
        (others.flatMap (fun c => mark :: pieces c) ++ rest) rest fun links =>
        links.map (fun link => (link.before, link.after, seen link.operand)) = others.map fun c =>
        ([], [], target c) := by
    apply Leads.many (fun c _ after => continues (pieces c ++ after)) ends
    · intro c member after follows'
      refine (link_leads connects (each c (.tail _ member) after follows')).imp ?_
      rintro _ ⟨value, rfl, same⟩
      rw [same]
    · exact fun _ _ => List.cons_ne_nil _ _
    · exact link_refuses stops
  rw [shape]
  apply (each b (.head _) _ further).bind
  intro value same
  apply links.bind
  intro links sameLinks
  refine .pure ?_
  rw [operands_alone sameLinks, same]

end Joined

end Marginalia
