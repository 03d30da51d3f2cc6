import Marginalia.Proofs.Literal.Token
import Marginalia.Proofs.Scan.Arrival

/-!
# Strings and characters are read by their grammar

The grammar of strings and characters says what may stand between their quotes: single units and
escapes, one after another. Where a token begins with a quote, scanning finds exactly what the
grammar allows there, and it fails where the grammar allows nothing. The literal that is read from
such a token spells the token.
-/

namespace Marginalia
open Marginalia.Parser Marginalia.Grammar

/-! ## The grammar -/

/-- What stands behind the backslash of an escape. -/
inductive Escape : Text → Prop where
  | mark {u : CodeUnit} (escapable : u ∈ Text.ofString "nrt\"'\\") : Escape [u]
  | unicode {digits : Text} (all : ∀ u ∈ digits, u.isHexDigit = true) :
      Escape (Text.ofString "u\x7b" ++ (digits ++ Text.ofString "\x7d"))

/-- What stands between the quotes of a string on one line. -/
inductive LineItems : Text → Prop where
  | nil : LineItems []
  | unit {u : CodeUnit} {others : Text} (plain : u ∉ Text.ofString "\"\\\n")
      (items : LineItems others) : LineItems (u :: others)
  | escape {escaped others : Text} (isEscape : Escape escaped) (items : LineItems others) :
      LineItems (.ofChar '\\' :: (escaped ++ others))

/-- What stands between the quotes of a string of several lines: before no item do three quotes
stand, those behind the last item counted in. -/
inductive BlockItems : Text → Prop where
  | nil : BlockItems []
  | unit {u : CodeUnit} {others : Text} (plain : u ≠ .ofChar '\\')
      (stays : ¬ Text.ofString Scan.tripleQuote <+: u :: (others ++ Text.ofString Scan.tripleQuote))
      (items : BlockItems others) : BlockItems (u :: others)
  | escape {escaped others : Text} (isEscape : Escape escaped) (items : BlockItems others) :
      BlockItems (.ofChar '\\' :: (escaped ++ others))

/-- What stands between the quotes of a character. -/
inductive CharacterItem : Text → Prop where
  | unit {u : CodeUnit} (plain : u ∉ Text.ofString "\\\n") : CharacterItem [u]
  | escape {escaped : Text} (isEscape : Escape escaped) : CharacterItem (.ofChar '\\' :: escaped)

namespace QuotedLiteral

/-- The unit that a literal opens with. -/
def quote : QuotedLiteral → CodeUnit
  | string => .ofChar '"'
  | char => .ofChar '\''

/-- The kind of the token of a literal. -/
def kind : QuotedLiteral → TokenKind
  | string => .string
  | char => .char

/-- The grammar allows a lexeme in front of the text that follows it. Whether three quotes open it
is told by both. -/
def Allows : QuotedLiteral → Text → Text → Prop
  | string, lexeme, after =>
    (¬ Text.ofString Scan.tripleQuote <+: lexeme ++ after → ∃ body, LineItems body ∧
        lexeme = body.quoted "\"") ∧ (Text.ofString Scan.tripleQuote <+: lexeme ++ after →
        ∃ body, BlockItems body ∧ lexeme = body.quoted Scan.tripleQuote)
  | char, lexeme, _ => ∃ body, CharacterItem body ∧ lexeme = body.quoted "'"

/-- The number of units of a literal. -/
def reader : QuotedLiteral → Text → Scan.Reading Nat
  | string => Scan.string
  | char => Scan.character

end QuotedLiteral

/-! ## The readers -/

namespace Scan

/-- What is read as an escape is one. -/
theorem escape_sound {text : Text} {taken : Nat} (read : escape text = .ok taken) :
    ∃ escaped after, text = escaped ++ after ∧ taken = escaped.length ∧ Escape escaped := by
  by_cases braced : opensWith "u\x7b" text = true
  · obtain ⟨inside, rfl⟩ := (opensWith_iff _ _).mp braced
    obtain ⟨digits, tail, rfl, count, all, -⟩ := run_split CodeUnit.isHexDigit inside
    have opened : (Text.ofString "u\x7b" ++ (digits ++ tail)).drop 2 = digits ++ tail := rfl
    have behind : (Text.ofString "u\x7b" ++ (digits ++ tail)).drop (2 + digits.length) = tail := by
      rw [← List.drop_drop, opened, List.drop_left]
    simp only [escape, braced, ↓reduceIte, opened, count, behind] at read
    split at read
    · rename_i closes
      obtain rfl := Except.ok.inj read
      obtain ⟨after, rfl⟩ := List.head?_eq_some_iff.mp closes
      refine ⟨Text.ofString "u\x7b" ++ (digits ++ Text.ofString "\x7d"), after, by simp; rfl,
        ?_, .unicode all⟩
      simp only [List.length_append]
      exact Nat.add_assoc _ _ _
    · cases read
  · cases text with
    | nil => simp [escape, braced] at read
    | cons u rest =>
      rw [escape, if_neg braced] at read
      split at read
      · rename_i escapable
        obtain rfl := Except.ok.inj read
        have units : Text.ofString "nrt\"'\\" =
              ['n', 'r', 't', '"', '\'', '\\'].map CodeUnit.ofChar := by decide
        refine ⟨[u], rest, rfl, rfl, .mark ?_⟩
        rw [units, List.mem_map]
        simpa [isEscapable] using escapable
      · cases read

/-- An escape is read, whatever follows it. -/
theorem escape_complete {escaped : Text} (isEscape : Escape escaped) (after : Text) :
    escape (escaped ++ after) = .ok escaped.length := by
  cases isEscape with
  | @mark u escapable =>
    have isMark : (Text.ofString "nrt\"'\\").all (fun u => u != .ofChar 'u' && isEscapable u) =
          true := by decide
    obtain ⟨notBraced, escapes⟩ := Bool.and_eq_true_iff.mp (List.all_eq_true.mp isMark u escapable)
    have unbraced : ¬ opensWith "u\x7b" (u :: after) = true := by
      intro opens
      obtain ⟨rest, same⟩ := (opensWith_iff _ _).mp opens
      exact bne_iff_ne.mp notBraced (List.cons.inj same).1
    simp [escape, unbraced, escapes]
  | @unicode digits all =>
    have opened : ∀ text : Text, (Text.ofString "u\x7b" ++ text).drop 2 = text := fun _ => rfl
    have count :
        run CodeUnit.isHexDigit (digits ++ (Text.ofString "\x7d" ++ after)) = digits.length := by
      refine run_append all fun u first => ?_
      obtain rfl : CodeUnit.ofChar '\x7d' = u := Option.some.inj first
      decide
    have behind : (Text.ofString "u\x7b" ++ (digits ++ (Text.ofString "\x7d" ++ after))).drop
          (2 + digits.length) = Text.ofString "\x7d" ++ after := by
      rw [← List.drop_drop, opened, List.drop_left]
    have closes : (Text.ofString "\x7d" ++ after).head? = some (.ofChar '\x7d') := rfl
    rw [List.append_assoc, List.append_assoc]
    simp only [escape, opensWith_append, ↓reduceIte, opened, count, behind, closes,
      List.length_append]
    exact congrArg Except.ok (Nat.add_assoc _ _ _)

/-- What is read as a string on one line is made of the items of one. -/
theorem lineStringEnd_sound {text : Text} {taken : Nat} (read : lineStringEnd text = .ok taken) :
    ∃ body after, text = body ++ (Text.ofString "\"" ++ after) ∧ taken = body.length + 1 ∧
      LineItems body := by
  induction text using lineStringEnd.induct generalizing taken with
  | case1 => simp [lineStringEnd] at read
  | case2 rest =>
    rw [lineStringEnd, if_pos rfl] at read
    obtain rfl := Except.ok.inj read
    exact ⟨[], rest, rfl, rfl, .nil⟩
  | case3 rest notQuote =>
    rw [lineStringEnd, if_neg notQuote, if_pos rfl] at read
    cases read
  | case4 rest stop fault notQuote notNewline =>
    rw [lineStringEnd, if_neg notQuote, if_neg notNewline, if_pos rfl, fault] at read
    cases read
  | case5 rest count escapes notQuote notNewline ih =>
    rw [lineStringEnd, if_neg notQuote, if_neg notNewline, if_pos rfl, escapes] at read
    obtain ⟨inner, ended, rfl⟩ := after_eq_ok.mp read
    obtain ⟨escaped, following, rfl, rfl, isEscape⟩ := escape_sound escapes
    rw [List.drop_left] at ended ih
    obtain ⟨body, after, rfl, rfl, items⟩ := ih ended
    exact ⟨.ofChar '\\' :: (escaped ++ body), after, by simp, by simp; omega,
      .escape isEscape items⟩
  | case6 u rest notQuote notNewline notEscape ih =>
    rw [lineStringEnd, if_neg notQuote, if_neg notNewline, if_neg notEscape] at read
    obtain ⟨inner, ended, rfl⟩ := after_eq_ok.mp read
    obtain ⟨body, after, rfl, rfl, items⟩ := ih ended
    have units : Text.ofString "\"\\\n" = [.ofChar '"', .ofChar '\\', Text.newline] := rfl
    refine ⟨u :: body, after, rfl, by simp; omega, .unit ?_ items⟩
    simp [units, notQuote, notEscape, notNewline]

/-- The items of a string on one line are read up to the quote behind them. -/
theorem lineStringEnd_complete {body : Text} (items : LineItems body) (after : Text) :
    lineStringEnd (body ++ (Text.ofString "\"" ++ after)) = .ok (body.length + 1) := by
  induction items with
  | nil =>
    show lineStringEnd (.ofChar '"' :: after) = .ok 1
    rw [lineStringEnd, if_pos rfl]
  | @unit u others plain _ ih =>
    have units : Text.ofString "\"\\\n" = [.ofChar '"', .ofChar '\\', Text.newline] := rfl
    simp only [units, List.mem_cons, List.not_mem_nil, or_false, not_or] at plain
    rw [List.cons_append, lineStringEnd, if_neg plain.1, if_neg plain.2.2, if_neg plain.2.1, ih]
    exact congrArg Except.ok (Nat.add_comm _ _)
  | @escape escaped others isEscape _ ih =>
    rw [List.cons_append, List.append_assoc, lineStringEnd, if_neg (by decide), if_neg (by decide),
      if_pos rfl, escape_complete isEscape]
    simp only [List.drop_left, ih, Reading.after]
    simp only [List.length_cons, List.length_append]
    exact congrArg Except.ok (by omega)

/-- What is read as a string of several lines is made of the items of one. -/
theorem blockStringEnd_sound {text : Text} {taken : Nat} (read : blockStringEnd text = .ok taken) :
    ∃ body after, text = body ++ (Text.ofString tripleQuote ++ after) ∧ taken = body.length + 3 ∧
      BlockItems body := by
  induction text using blockStringEnd.induct generalizing taken with
  | case1 => simp [blockStringEnd] at read
  | case2 u rest closes =>
    rw [blockStringEnd, if_pos closes] at read
    obtain rfl := Except.ok.inj read
    obtain ⟨after, same⟩ := (opensWith_iff _ _).mp closes
    exact ⟨[], after, same, rfl, .nil⟩
  | case3 rest stop fault stays =>
    rw [blockStringEnd, if_neg stays, if_pos rfl, fault] at read
    cases read
  | case4 rest count escapes stays ih =>
    rw [blockStringEnd, if_neg stays, if_pos rfl, escapes] at read
    obtain ⟨inner, ended, rfl⟩ := after_eq_ok.mp read
    obtain ⟨escaped, following, rfl, rfl, isEscape⟩ := escape_sound escapes
    rw [List.drop_left] at ended ih
    obtain ⟨body, after, rfl, rfl, items⟩ := ih ended
    exact ⟨.ofChar '\\' :: (escaped ++ body), after, by simp, by simp; omega,
      .escape isEscape items⟩
  | case5 u rest stays notEscape ih =>
    rw [blockStringEnd, if_neg stays, if_neg notEscape] at read
    obtain ⟨inner, ended, rfl⟩ := after_eq_ok.mp read
    obtain ⟨body, after, rfl, rfl, items⟩ := ih ended
    refine ⟨u :: body, after, rfl, by simp; omega, .unit notEscape (fun opens => stays ?_) items⟩
    rw [← List.append_assoc]
    exact opensWith_of_front (List.isPrefixOf_iff_prefix.mpr opens) after

/-- Whether three quotes stand before an item is told by the item, those behind it and the quotes
that close the string. -/
theorem opens_tripleQuote_iff (u : CodeUnit) (others after : Text) :
    opensWith tripleQuote (u :: (others ++ (Text.ofString tripleQuote ++ after))) = true ↔
      Text.ofString tripleQuote <+: u :: (others ++ Text.ofString tripleQuote) := by
  rw [opensWith, List.isPrefixOf_iff_prefix]
  have short :
      (Text.ofString tripleQuote).length ≤ (u :: (others ++ Text.ofString tripleQuote)).length := by
    have three : (Text.ofString tripleQuote).length = 3 := rfl
    simp only [List.length_cons, List.length_append, three]
    omega
  have front : u :: (others ++ Text.ofString tripleQuote) <+: u ::
        (others ++ (Text.ofString tripleQuote ++ after)) :=
    ⟨after, by simp⟩
  exact ⟨fun opens => List.prefix_of_prefix_length_le opens front short,
    fun opens => opens.trans front⟩

/-- The items of a string of several lines are read up to the quotes behind them. -/
theorem blockStringEnd_complete {body : Text} (items : BlockItems body) (after : Text) :
    blockStringEnd (body ++ (Text.ofString tripleQuote ++ after)) = .ok (body.length + 3) := by
  induction items with
  | nil =>
    show blockStringEnd (.ofChar '"' :: .ofChar '"' :: .ofChar '"' :: after) = .ok 3
    rw [blockStringEnd]
    exact if_pos (opensWith_append tripleQuote after)
  | @unit u others plain stays _ ih =>
    rw [← opens_tripleQuote_iff u others after] at stays
    rw [List.cons_append, blockStringEnd, if_neg stays, if_neg plain, ih]
    exact congrArg Except.ok (by simp only [List.length_cons]; omega)
  | @escape escaped others isEscape _ ih =>
    have stays : ∀ rest, ¬ opensWith tripleQuote (.ofChar '\\' :: rest) = true := by
      intro rest opens
      obtain ⟨_, same⟩ := (opensWith_iff _ _).mp opens
      exact absurd (List.cons.inj same).1 (by decide)
    rw [List.cons_append, List.append_assoc, blockStringEnd, if_neg (stays _), if_pos rfl,
      escape_complete isEscape]
    simp only [List.drop_left, ih, Reading.after]
    simp only [List.length_cons, List.length_append]
    exact congrArg Except.ok (by omega)

/-- Where a part that is read up to a mark has the same mark in front of it, it is read exactly if
items of the part stand between the marks. -/
theorem between_eq_ok_iff {mark : String} {Items : Text → Prop} {reader : Text → Reading Nat}
    (lexeme after : Text) (sound : ∀ {text : Text} {taken : Nat}, reader text = .ok taken →
      ∃ body after, text = body ++ (Text.ofString mark ++ after) ∧
      taken = body.length + (Text.ofString mark).length ∧ Items body)
    (complete : ∀ {body : Text}, Items body → ∀ after, reader
      (body ++ (Text.ofString mark ++ after)) = .ok (body.length + (Text.ofString mark).length))
    (opens : Text.ofString mark <+: lexeme ++ after) :
    (reader ((lexeme ++ after).drop (Text.ofString mark).length)).after
      (Text.ofString mark).length = .ok lexeme.length ↔ ∃ body, Items body ∧
      lexeme = body.quoted mark := by
  constructor
  · intro read
    obtain ⟨inner, ended, count⟩ := after_eq_ok.mp read
    obtain ⟨body, further, split, rfl, items⟩ := sound ended
    obtain ⟨behind, same⟩ := opens
    rw [← same, List.drop_left] at split
    have whole : lexeme ++ after = body.quoted mark ++ further := by
      rw [← same, split, Text.quoted, List.append_assoc, List.append_assoc]
    have length : lexeme.length = (body.quoted mark).length := by
      simp only [Text.quoted, List.length_append]
      omega
    exact ⟨body, items, (List.append_inj whole length).1⟩
  · rintro ⟨body, items, rfl⟩
    have split : body.quoted mark ++ after = Text.ofString mark ++
          (body ++ (Text.ofString mark ++ after)) := by
      simp only [Text.quoted, List.append_assoc]
    rw [split, List.drop_left, complete items]
    simp only [Reading.after, Text.quoted, List.length_append]

/-- A string is read exactly where the grammar allows it. -/
theorem string_eq_ok_iff {tail after : Text} :
    string (.ofChar '"' :: (tail ++ after)) = .ok (tail.length + 1) ↔
      QuotedLiteral.string.Allows (.ofChar '"' :: tail) after := by
  have quote : Text.ofString "\"" <+: .ofChar '"' :: (tail ++ after) := ⟨tail ++ after, rfl⟩
  have triple_iff : opensWith tripleQuote (.ofChar '"' :: (tail ++ after)) = true ↔
      Text.ofString tripleQuote <+: .ofChar '"' :: (tail ++ after) := List.isPrefixOf_iff_prefix
  by_cases triple : Text.ofString tripleQuote <+: .ofChar '"' :: (tail ++ after)
  · rw [string, if_pos (triple_iff.mpr triple)]
    exact (between_eq_ok_iff (.ofChar '"' :: tail) after blockStringEnd_sound
        blockStringEnd_complete triple).trans ⟨fun block =>
        ⟨fun single => absurd triple single, fun _ => block⟩, fun allows => allows.2 triple⟩
  · rw [string, if_neg fun opens => triple (triple_iff.mp opens)]
    exact (between_eq_ok_iff (.ofChar '"' :: tail) after lineStringEnd_sound lineStringEnd_complete
        quote).trans ⟨fun line => ⟨fun _ => line, fun opens => absurd opens triple⟩,
      fun allows => allows.1 triple⟩

/-- What is read between the quotes of a character is one unit or escape. -/
theorem characterBody_sound {text : Text} {taken : Nat} (read : characterBody text = .ok taken) :
    ∃ body after, text = body ++ after ∧ taken = body.length ∧ CharacterItem body := by
  have units : Text.ofString "\\\n" = [.ofChar '\\', Text.newline] := rfl
  cases text with
  | nil => cases read
  | cons u rest =>
    rw [characterBody] at read
    split at read
    · cases read
    · rename_i notNewline
      split at read
      · rename_i escapes
        obtain ⟨inner, ended, rfl⟩ := after_eq_ok.mp read
        obtain ⟨escaped, after, rfl, rfl, isEscape⟩ := escape_sound ended
        exact ⟨.ofChar '\\' :: escaped, after, by rw [escapes]; rfl, Nat.add_comm _ _,
          .escape isEscape⟩
      · rename_i notEscape
        obtain rfl := Except.ok.inj read
        exact ⟨[u], rest, rfl, rfl, .unit (by simp [units, notEscape, notNewline])⟩

/-- One unit or escape between the quotes of a character is read, whatever follows it. -/
theorem characterBody_complete {body : Text} (item : CharacterItem body) (after : Text) :
    characterBody (body ++ after) = .ok body.length := by
  have units : Text.ofString "\\\n" = [.ofChar '\\', Text.newline] := rfl
  cases item with
  | @unit u plain =>
    simp only [units, List.mem_cons, List.not_mem_nil, or_false, not_or] at plain
    show characterBody (u :: after) = .ok 1
    rw [characterBody, if_neg plain.2, if_neg plain.1]
  | @escape escaped isEscape =>
    rw [List.cons_append, characterBody, if_neg (by decide), if_pos rfl, escape_complete isEscape,
      List.length_cons, Nat.add_comm]
    rfl

/-- A character is read exactly where the grammar allows it. -/
theorem character_eq_ok_iff {tail after : Text} :
    character (.ofChar '\'' :: (tail ++ after)) = .ok (tail.length + 1) ↔
      QuotedLiteral.char.Allows (.ofChar '\'' :: tail) after := by
  have opened : (CodeUnit.ofChar '\'' :: (tail ++ after)).drop 1 = tail ++ after := rfl
  rw [character, opened]
  constructor
  · intro read
    split at read
    · cases read
    · rename_i taken inside
      split at read
      · rename_i closes
        obtain ⟨inner, ended, rfl⟩ := after_eq_ok.mp inside
        obtain ⟨body, further, split, rfl, item⟩ := characterBody_sound ended
        have behind :
            (CodeUnit.ofChar '\'' :: (tail ++ after)).drop (1 + body.length) = further := by
          rw [← List.drop_drop, opened, split, List.drop_left]
        rw [behind] at closes
        obtain ⟨more, rfl⟩ := List.head?_eq_some_iff.mp closes
        have count : 1 + body.length + 1 = tail.length + 1 := Except.ok.inj read
        have whole : tail ++ after = body ++ Text.ofString "'" ++ more := by
          rw [split, List.append_assoc]
          rfl
        have length : tail.length = (body ++ Text.ofString "'").length := by
          have one : (Text.ofString "'").length = 1 := rfl
          rw [List.length_append, one]
          omega
        exact ⟨body, item, by rw [(List.append_inj whole length).1]; rfl⟩
      · cases read
  · rintro ⟨body, item, same⟩
    obtain rfl : tail = body ++ Text.ofString "'" := (List.cons.inj same).2
    have behind : (CodeUnit.ofChar '\'' :: (body ++ (Text.ofString "'" ++ after))).drop
          (1 + body.length) = Text.ofString "'" ++ after := by
      rw [← List.drop_drop]
      exact List.drop_left
    have length : 1 + body.length + 1 = (body ++ Text.ofString "'").length + 1 := by
      rw [List.length_append, Nat.add_comm 1]
      rfl
    rw [List.append_assoc, characterBody_complete item]
    simp only [Reading.after, behind]
    rw [← length]
    exact if_pos rfl

end Scan

namespace QuotedLiteral

/-- A literal is read exactly where the grammar allows it. -/
theorem reader_eq_ok_iff (form : QuotedLiteral) {tail after : Text} :
    form.reader (form.quote :: (tail ++ after)) = .ok (tail.length + 1) ↔
    form.Allows (form.quote :: tail) after :=
  match form with
  | string => Scan.string_eq_ok_iff
  | char => Scan.character_eq_ok_iff

/-- A token that begins with a quote is the literal behind it. -/
theorem front_quote (form : QuotedLiteral) (rest : Text) :
    Scan.front form.quote rest = (form.reader (form.quote :: rest)).map (form.kind, ·) := by
  cases form <;> rfl

/-- What the grammar allows has the shape of its kind of token. -/
theorem Allows.shape {form : QuotedLiteral} {lexeme after : Text}
    (allows : form.Allows lexeme after) : Scan.Shape form.kind lexeme := by
  match form with
  | string =>
    by_cases opens : Text.ofString Scan.tripleQuote <+: lexeme ++ after
    · obtain ⟨body, -, rfl⟩ := allows.2 opens
      exact .inl ⟨body, rfl⟩
    · obtain ⟨body, -, rfl⟩ := allows.1 opens
      refine .inr ⟨Bool.eq_false_iff.mpr fun triple => opens ?_, body, rfl⟩
      exact (List.isPrefixOf_iff_prefix.mp triple).trans (List.prefix_append _ _)
  | char =>
    obtain ⟨body, -, rfl⟩ := allows
    exact ⟨body, rfl⟩

/-- The token of a literal that begins at a position. -/
def token (form : QuotedLiteral) (position : Position) (tail : Text) : Token :=
  ⟨form.kind, form.quote :: tail, ⟨position, position.advance (form.quote :: tail)⟩⟩

/-- What scanning does where some tokens have been found and a quote stands in front of the text
that is left, and what the grammar reads from the token that is found there. -/
structure Settles (form : QuotedLiteral) (source : Text) (found : List Token) (position : Position)
    (rest : Text) : Prop where
  /-- A token is found exactly if the grammar allows it in front of what follows. -/
  found_iff : ∀ tail after, rest = tail ++ after →
      (Scan.Arrives source (found ++ [form.token position tail])
      (position.advance (form.quote :: tail)) after ↔ form.Allows (form.quote :: tail) after)
  /-- Where the grammar allows nothing, scanning fails. -/
  fails : (∀ tail after, rest = tail ++ after → ¬ form.Allows (form.quote :: tail) after) →
    ∃ error, Token.scan source = .error error
  /-- A source that is scanned has a token there that the grammar allows. -/
  scanned : ∀ tokens, Token.scan source = .ok tokens → ∃ tail after later, rest = tail ++ after ∧
    form.Allows (form.quote :: tail) after ∧ tokens = found ++ form.token position tail :: later
  /-- From a token that the grammar allows a literal of the same sort is read, and between its
  quotes it is the lexeme. -/
  read : ∀ tail after, form.Allows (form.quote :: tail) after → ∀ (input : Input) (cursor : Cursor),
      input.tokenAt? cursor.index = some (form.token position tail) →
      StartsAt (form.token position tail) cursor →
      ∃ value, literal input cursor = .done value (past (form.token position tail) cursor) ∧
      value.tokenKind = form.kind ∧ value.spelling = form.quote :: tail

end QuotedLiteral

/-- Strings and characters are found exactly where the grammar allows them, and the literals that
are read spell them. -/
theorem quoted_literals_settle (form : QuotedLiteral) {source : Text} {found : List Token}
    {position : Position} {rest : Text}
    (arrives : Scan.Arrives source found position (form.quote :: rest)) :
    form.Settles source found position rest := by
  have solid : Scan.isBlank form.quote = false := by cases form <;> decide
  have front_iff : ∀ {tail after : Text}, Scan.front form.quote (tail ++ after) =
        .ok (form.kind, tail.length + 1) ↔ form.Allows (form.quote :: tail) after := by
    intro tail after
    rw [form.front_quote, Scan.map_eq_ok, ← form.reader_eq_ok_iff]
    exact and_iff_right rfl
  have front_cases : (∃ error, Token.scan source = .error error) ∨
      ∃ tail after, rest = tail ++ after ∧ form.Allows (form.quote :: tail) after := by
    cases front : Scan.front form.quote rest with
    | error stop => exact .inl (arrives.scan_fault solid front)
    | ok result =>
      obtain ⟨kind, taken⟩ := result
      obtain ⟨tail, after, rfl, rfl, -⟩ := Scan.front_takes front
      have isKind := front
      rw [form.front_quote, Scan.map_eq_ok] at isKind
      rw [isKind.1] at front
      exact .inr ⟨tail, after, rfl, front_iff.mp front⟩
  refine ⟨?_, ?_, ?_, ?_⟩
  · rintro tail after rfl
    exact (arrives.found_iff solid).trans front_iff
  · intro none
    rcases front_cases with fails | ⟨tail, after, split, allows⟩
    · exact fails
    · exact absurd allows (none tail after split)
  · intro tokens scan
    rcases front_cases with ⟨error, fails⟩ | ⟨tail, after, rfl, allows⟩
    · rw [fails] at scan
      cases scan
    · have behind := (Scan.Arrives.token solid (front_iff.mpr allows) arrives).scan
      rw [scan] at behind
      cases following : Scan.tokens (position.advance (form.quote :: tail)) after with
      | error error =>
        rw [following] at behind
        cases behind
      | ok later =>
        rw [following] at behind
        exact ⟨tail, after, later, rfl, allows,
          (Except.ok.inj behind).trans (List.append_assoc _ _ _)⟩
  · intro tail after allows input cursor next adjacent
    obtain ⟨value, stands⟩ : ∃ value, (form.token position tail).literal? = some value := by
      cases form <;> exact ⟨_, rfl⟩
    have notNumber : form.kind ≠ .number := by cases form <;> decide
    obtain ⟨sameKind, spells⟩ := Token.spells_of_literal? allows.shape stands
    exact ⟨value, literal_of_token next adjacent stands, sameKind, spells notNumber⟩

/-- Behind a parenthesis, a quote between two quotes is a character. -/
theorem quote_between_quotes_settles :
    Scan.Arrives "(''')" [⟨.leftParen, "(", ⟨⟨0, 1, 1⟩, ⟨1, 1, 2⟩⟩⟩] ⟨1, 1, 2⟩ "''')" ∧
    QuotedLiteral.char.Settles "(''')" [⟨.leftParen, "(", ⟨⟨0, 1, 1⟩, ⟨1, 1, 2⟩⟩⟩] ⟨1, 1, 2⟩ "'')" ∧
    QuotedLiteral.char.Allows "'''" ")" := by
  have opens : Scan.front (.ofChar '(') ([] ++ Text.ofString "''')") = .ok (.leftParen, 1) := by
    decide
  have arrives :
      Scan.Arrives "(''')" [⟨.leftParen, "(", ⟨⟨0, 1, 1⟩, ⟨1, 1, 2⟩⟩⟩] ⟨1, 1, 2⟩ "''')" :=
    Scan.Arrives.token (by decide) opens .start
  exact ⟨arrives, quoted_literals_settle .char arrives, [.ofChar '\''], .unit (by decide), rfl⟩

end Marginalia
