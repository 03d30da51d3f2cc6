import Marginalia.Proofs.Spelling.Reading
import Marginalia.Grammar.Joined

/-!
# Reading tokens, repetitions and bracketed sequences

What the parsers of single tokens read, and what is read by the combinators that run a parser again
and again.
-/

namespace Marginalia.Parser

open Word

variable {α β : Type} {input : Input}

/-! ## Tokens -/

/-- A token that spells words, whenever it has the shape of its kind and a property, is read as
these words. -/
theorem satisfy_reads (scanned : input.Scanned) {property : Token → Bool}
    {words : Token → List Word} (spells : ∀ token, Scan.Shape token.kind token.lexeme →
      property token = true → token.kind ≠ .eof ∧ Spelled (words token) [token]) (label : String) :
    Reads input (satisfy property label) (fun _ => []) words := by
  refine reads_iff.mpr fun start token stop run => ?_
  obtain ⟨found, ⟨-, noComment, holds⟩, rfl⟩ := satisfy_done run
  obtain ⟨notEnd, spelled⟩ := spells token (scanned.shape found) holds
  refine ⟨[token], scanned.drop_eq_cons found notEnd, ?_, ?_⟩
  · simp [commentsOf, noComment]
  · have solid : solidOf [token] = [token] := by simp [solidOf, noComment, notEnd]
    rwa [solid]

/-- A token of a kind reads as itself. -/
theorem token_reads (scanned : input.Scanned) {kind : TokenKind}
    (notEnd : kind ≠ .eof) (label : String) :
    Reads input (token kind label) (fun _ => []) fun token => [exact kind token.lexeme] := by
  refine satisfy_reads scanned (fun token _ isKind => ?_) label
  have same : token.kind = kind := by simpa using isKind
  exact ⟨by rwa [same], .single ⟨token, rfl, same, rfl⟩⟩

/-- Punctuation with one spelling has that spelling. -/
theorem Shape.lexeme_of_mark? {kind : TokenKind} {lexeme : Text} (shape : Scan.Shape kind lexeme)
    {word : String} (marked : kind.mark? = some word) : lexeme = Text.ofString word := by
  cases kind <;> simp_all [Scan.Shape, TokenKind.mark?]

/-- Punctuation with one spelling reads as its mark. -/
theorem mark_reads (scanned : input.Scanned) {kind : TokenKind} (marked : kind.mark?.isSome)
    (label : String) : Reads input (token kind label) (fun _ => []) fun _ => [mark kind] := by
  refine satisfy_reads scanned (fun token shape isKind => ?_) label
  have same : token.kind = kind := by simpa using isKind
  obtain ⟨word, isMark⟩ := Option.isSome_iff_exists.mp marked
  have spelling := Shape.lexeme_of_mark? shape (by rw [same, isMark])
  refine ⟨?_, .single ⟨token, rfl, same, ?_⟩⟩
  · rintro ends
    rw [← same, ends] at isMark
    cases isMark
  · rw [spelling, isMark]
    rfl

/-- A token with a spelling reads as itself. -/
theorem spelled_reads (scanned : input.Scanned) {kind : TokenKind} (notEnd : kind ≠ .eof)
    (word : String) : Reads input (spelled kind word) (fun _ => []) fun _ => [exact kind word] := by
  refine satisfy_reads scanned (fun token _ isWord => ?_) _
  simp only [Bool.and_eq_true, beq_iff_eq] at isWord
  exact ⟨by rwa [isWord.1], .single ⟨token, rfl, isWord.1, isWord.2⟩⟩

/-- A reserved word reads as itself. -/
theorem keyword_reads (scanned : input.Scanned) (word : String) :
    Reads input (Parser.keyword word) (fun _ => []) fun _ => [Word.keyword word] :=
  spelled_reads scanned (by decide) word

/-- An operator reads as itself. -/
theorem operator_reads (scanned : input.Scanned) (symbol : String) :
    Reads input (Parser.operator symbol) (fun _ => []) fun _ => [Word.operator symbol] :=
  spelled_reads scanned (by decide) symbol

/-! ## Repetition -/

/-- The comments of the items of a sequence. -/
@[simp]
def Items.allComments (inner : α → Comments) (items : Items α) : Comments :=
  items.items.flatMap (·.allComments inner) ++ items.trailing

section Repetition

variable {allComments : α → Comments} {allWords : α → List Word}

/-- The cursor is told without reading. -/
theorem cursor_reads : Reads input cursor (fun _ => []) (fun _ => []) :=
  reads_nothing fun start value stop run => by rw [← (Outcome.done.inj run).2]

/-- Values read as one after the other. -/
theorem valuesUpTo_reads {parser : Parser (Option α)}
    (reads : Reads input parser (·.elim [] allComments) (·.elim [] allWords)) (bound : Nat) :
    Reads input (valuesUpTo parser bound) (·.flatMap allComments) (·.flatMap allWords) := by
  induction bound with
  | zero =>
    intro start value stop run
    cases run
  | succ bound ih =>
    refine .bind cursor_reads fun before => .bind reads.optional fun found => ?_
    match found with
    | some (some value) =>
      refine .bind cursor_reads fun after => ?_
      split
      · exact .bind ih fun rest => .pure (by simp) (by simp)
      · exact .pure (by simp) (by simp)
    | some none => exact .pure (by simp) (by simp)
    | none => exact .pure (by simp) (by simp)

/-- A repeated parser reads as its values, one after the other. -/
theorem Reads.many {parser : Parser α} (reads : Reads input parser allComments allWords) :
    Reads input (many parser) (·.flatMap allComments) (·.flatMap allWords) :=
  valuesUpTo_reads (reads.map (fun _ => rfl) (fun _ => rfl)) input.repetitionLimit

/-! ## Bracketed sequences -/

variable {item : Parser α} {close : TokenKind}

/-- Parts with a separator are the first one, and then the separator and the others. -/
theorem between_cons (separator : Word) (part : List Word) (parts : List (List Word)) :
    between separator (part :: parts) = part ++ parts.flatMap (separator :: ·) := by
  induction parts generalizing part with
  | nil => simp [between]
  | cons next rest ih =>
    rw [between, List.intercalate_cons_cons, ← between, ih]
    simp

/-- There is at least one item before a closing token. -/
theorem itemsUpTo_ne_nil {label : String} {bound : Nat} {before : Comments}
    {items : List (Commented α)}
    (given : Gives input (itemsUpTo close item label bound before) items) : items ≠ [] := by
  obtain ⟨start, stop, run⟩ := given
  cases bound with
  | zero => cases run
  | succ bound =>
    simp only [itemsUpTo, bind_done] at run
    obtain ⟨value, _, -, after, _, -, goesOn, _, -, run⟩ := run
    split at run
    · obtain ⟨_, _, -, next, _, -, rest, _, -, result⟩ := by simpa only [bind_done] using run
      rw [← (Outcome.done.inj result).1]
      exact List.cons_ne_nil _ _
    · obtain ⟨_, _, -, result⟩ := bind_done.mp run
      rw [← (Outcome.done.inj result).1]
      exact List.cons_ne_nil _ _

/-- Items are read with commas between them and a closing token behind them. -/
theorem itemsUpTo_reads (scanned : input.Scanned) (reads : Reads input item allComments allWords)
    (closes : close.mark?.isSome) (label : String) (bound : Nat) (before : Comments) :
    Extends input before [] (itemsUpTo close item label bound before)
      (·.flatMap (·.allComments allComments))
      fun items => listed (items.map (allWords ·.value)) ++ [mark close] := by
  induction bound generalizing before with
  | zero =>
    intro start value stop run
    cases run
  | succ bound ih =>
    refine .bind reads fun value => .bind whitespace_reads fun after =>
      .bind (peekThat_reads _) fun goesOn => ?_
    split
    · refine .bind (mark_reads scanned (by decide) _) fun _ => .bind whitespace_reads fun next => ?_
      refine .bindAfter (before ++ (allComments value ++ after)) (ih next) (by simp)
        fun rest given => ?_
      refine .pure (by simp) ?_
      obtain ⟨second, others, rfl⟩ := List.exists_cons_of_ne_nil (itemsUpTo_ne_nil given)
      simp [listed, between_cons]
    · exact .bind (mark_reads scanned closes _) fun _ => .pure (by simp) (by simp [listed, between])

/-- A sequence is read with a closing token behind it. -/
theorem Reads.separated (reads : Reads input item allComments allWords) (scanned : input.Scanned)
    (closes : close.mark?.isSome) (label : String) :
    Reads input (separated close item label) (·.allComments allComments)
      fun items => listed (items.items.map (allWords ·.value)) ++ [mark close] := by
  refine .bind whitespace_reads fun before => .bind (peekThat_reads _) fun ends => ?_
  split
  · exact .bind (mark_reads scanned closes _) fun _ => .pure (by simp) (by simp [listed, between])
  · have items : Extends input before [] (fun input => itemsUpTo close item label
          input.repetitionLimit before input) (·.flatMap (·.allComments allComments)) fun items =>
        listed (items.map (allWords ·.value)) ++ [mark close] :=
      itemsUpTo_reads scanned reads closes label input.repetitionLimit before
    exact .bindAfter [] items (by simp) fun found _ => .pure (by simp) (by simp)

/-- A sequence is read between an opening and a closing token. -/
theorem Reads.group (reads : Reads input item allComments allWords) (scanned : input.Scanned)
    {opening : TokenKind} (opens : opening.mark?.isSome)
    (closes : close.mark?.isSome) (label : String) :
    Reads input (group opening close item label) (·.1.allComments allComments) fun contents =>
      enclosed opening close (listed (contents.1.items.map (allWords ·.value))) := by
  have inner : Reads input (do let _ ← token opening label; Parser.separated close item label)
        (·.allComments allComments) fun items =>
        enclosed opening close (listed (items.items.map (allWords ·.value))) :=
    .bind (mark_reads scanned opens label) fun _ =>
      .last (reads.separated scanned closes label) (by simp) (by simp [enclosed])
  exact inner.trackNewline

/-- Only a sequence without items has comments of its own. -/
theorem group_trailing {opening : TokenKind} {label : String} {contents : Items α × Bool}
    (given : Gives input (group opening close item label) contents) :
    contents.1.items = [] ∨ contents.1.trailing = [] := by
  obtain ⟨start, stop, run⟩ := given
  obtain ⟨_, _, -, run⟩ := bind_done.mp (trackNewline_done run).1
  obtain ⟨before, _, -, ends, _, -, run⟩ := by simpa only [separated, bind_done] using run
  split at run
  · obtain ⟨_, _, -, result⟩ := bind_done.mp run
    rw [← (Outcome.done.inj result).1]
    exact .inl rfl
  · obtain ⟨_, _, -, result⟩ := bind_done.mp run
    rw [← (Outcome.done.inj result).1]
    exact .inr rfl

end Repetition

end Marginalia.Parser
