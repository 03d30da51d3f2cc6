import Mathlib.Data.List.Chain
import Marginalia.Proofs.Blanking.Tokens

/-!
# Writing tokens on one line

A piece is a token to be written: its kind, its lexeme, and whether it is joined to the piece before
it. Pieces are written one after the other with single blanks between those that are not joined.
Main statement: where every piece is a possible lexeme of its kind and the joined ones may stand
together, scanning gives back the pieces.
-/

namespace Marginalia

/-- A token to be written. -/
structure Piece where
  /-- It stands directly behind the piece before it. -/
  joined : Bool
  /-- What sort of token it is. -/
  kind : TokenKind
  /-- The code units of the token. -/
  lexeme : Text
deriving DecidableEq, Repr

namespace Piece

/-- Punctuation that has only one spelling. -/
def mark (kind : TokenKind) : Piece := ⟨false, kind, kind.mark?.elim [] Text.ofString⟩

/-- A reserved word. -/
def keyword (word : String) : Piece := ⟨false, .keyword, word⟩

/-- A lower-case name. -/
def lower (name : Text) : Piece := ⟨false, .lowerIdentifier, name⟩

/-- An upper-case name. -/
def upper (name : Text) : Piece := ⟨false, .upperIdentifier, name⟩

/-- An operator. -/
def operator (symbol : Text) : Piece := ⟨false, .operator, symbol⟩

/-- The sign that begins an anonymous function. -/
def lambda : Piece := ⟨false, .backslash, "\\"⟩

/-- The same piece directly behind the one before it. -/
def join (piece : Piece) : Piece := { piece with joined := true }

/-- What is written of a piece: its lexeme, after a blank unless it is joined. -/
def text (piece : Piece) : Text :=
  if piece.joined then piece.lexeme else .ofChar ' ' :: piece.lexeme

/-- Where a piece begins, behind the piece that stops at a position. -/
def start (position : Position) (piece : Piece) : Position :=
  if piece.joined then position else position.step (.ofChar ' ')

/-- Where a piece stops. -/
def stop (position : Position) (piece : Piece) : Position :=
  (piece.start position).advance piece.lexeme

/-- The token of a piece. -/
def token (position : Position) (piece : Piece) : Token :=
  ⟨piece.kind, piece.lexeme, ⟨piece.start position, piece.stop position⟩⟩

/-- Pieces of which the first one is joined to what is before it. -/
def joinFirst : List Piece → List Piece
  | [] => []
  | first :: rest => first.join :: rest

/-- Pieces that are joined to each other. -/
def tight : List Piece → List Piece
  | [] => []
  | first :: rest => first :: rest.map join

/-- The text of pieces on one line. -/
def written (pieces : List Piece) : Text := pieces.flatMap text

/-- The tokens of pieces behind a position, and the end of the source. -/
def tokens (position : Position) : List Piece → List Token
  | [] => [⟨.eof, [], ⟨position, position⟩⟩]
  | piece :: rest => piece.token position :: tokens (piece.stop position) rest

end Piece

/-- Some source has a token with this kind and this lexeme. -/
def IsLexeme (kind : TokenKind) (lexeme : Text) : Prop :=
  ∃ source tokens, Token.scan source = .ok tokens ∧ ∃ token ∈ tokens, token.kind = kind ∧
    token.lexeme = lexeme

namespace Scan

/-! ## Lexemes at the front of a text -/

/-- The lexeme is read as a token of the kind when a text stands behind it. -/
def Fronts (kind : TokenKind) (lexeme other : Text) : Prop :=
  ∃ u tail, lexeme = u :: tail ∧ isBlank u = false ∧
    front u (tail ++ other) = .ok (kind, tail.length + 1)

/-- A token of a source is read before some text. -/
theorem Divides.fronts {position : Position} {text : Text} {found : List Token}
    (divides : Divides position text found) :
    ∀ token ∈ found, token.kind ≠ .eof → ∃ other, Fronts token.kind token.lexeme other := by
  induction divides with
  | done position => simp
  | blank _ _ ih => exact ih
  | @token _ u tail rest _ _ solid read _ ih =>
    intro token member notEnd
    cases member with
    | head => exact ⟨rest, u, tail, rfl, solid, read⟩
    | tail _ inRest => exact ih token inRest notEnd

/-- A token is read before a blank or the end as it is before any text; but not a line comment. -/
theorem Fronts.before_blank {kind : TokenKind} {lexeme other : Text}
    (fronts : Fronts kind lexeme other) (notLine : kind ≠ .lineComment) {later : Text}
    (blank : ∀ u ∈ later.head?, isBlank u = true) : Fronts kind lexeme later := by
  obtain ⟨u, tail, rfl, solid, read⟩ := fronts
  obtain ⟨tail', after, same, length, token⟩ := front_takes read
  obtain ⟨rfl, rfl⟩ := List.append_inj same (by omega)
  exact ⟨u, tail, rfl, solid, token.stays later (.of_blank blank) fun isLine =>
      absurd isLine notLine⟩

/-! ## Tokens that stand together -/

/-- What begins with neither a dash, a brace nor a square bracket is neither a comment nor a shader
block. -/
theorem not_opensSpecial {u : CodeUnit}
    (plain : u ≠ .ofChar '-' ∧ u ≠ .ofChar '{' ∧ u ≠ .ofChar '[') (rest : Text) :
    ¬ opensSpecial (u :: rest) = true := by
  intro special
  simp only [opensSpecial, Bool.or_eq_true] at special
  rcases special with (opens | opens) | opens
  · obtain ⟨_, same⟩ := (opensWith_iff _ _).mp opens
    exact plain.1 (List.cons.inj same).1
  · obtain ⟨_, same⟩ := (opensWith_iff _ _).mp opens
    exact plain.2.1 (List.cons.inj same).1
  · obtain ⟨_, same⟩ := (opensWith_iff _ _).mp opens
    exact plain.2.2 (List.cons.inj same).1

/-- A unit with a property that neither a dash, a brace nor a square bracket has is none of them. -/
theorem plain_of {property : CodeUnit → Bool} {u : CodeUnit} (holds : property u = true)
    (lacks : property (.ofChar '-') = false ∧ property (.ofChar '{') = false ∧
      property (.ofChar '[') = false) : u ≠ .ofChar '-' ∧ u ≠ .ofChar '{' ∧ u ≠ .ofChar '[' := by
  refine ⟨?_, ?_, ?_⟩
  · rintro rfl
    exact absurd holds (by simp [lacks])
  · rintro rfl
    exact absurd holds (by simp [lacks])
  · rintro rfl
    exact absurd holds (by simp [lacks])

/-- What is read of a text that begins as a name does. -/
theorem front_name {u : CodeUnit} {tail other : Text} (isStart : isNameStart u = true)
    (parts : ∀ v ∈ tail, isNamePart v = true) (stops : ∀ v ∈ other.head?, isNamePart v = false) :
    front u (tail ++ other) = .ok (nameKind (u :: tail) u, tail.length + 1) := by
  have isPart : isNamePart u = true := by simp [isNamePart, isStart]
  have count : run isNamePart (u :: (tail ++ other)) = tail.length + 1 := by
    rw [run_cons isPart, run_append parts stops]
  rw [front_plain (not_opensSpecial (plain_of isStart (by decide)) _), if_pos isStart,
    count, take_token]

/-- The units of a name are those that names may have. -/
theorem nameParts_of_front {u : CodeUnit} {tail other : Text} {kind : TokenKind}
    (isStart : isNameStart u = true)
    (read : front u (tail ++ other) = .ok (kind, tail.length + 1)) :
    kind = nameKind (u :: tail) u ∧ ∀ v ∈ tail, isNamePart v = true := by
  have isPart : isNamePart u = true := by simp [isNamePart, isStart]
  rw [front_plain (not_opensSpecial (plain_of isStart (by decide)) _), if_pos isStart] at read
  obtain ⟨sameKind, sameCount⟩ := Prod.mk.inj (Except.ok.inj read)
  rw [sameCount, take_token] at sameKind
  refine ⟨sameKind.symm, fun v member => ?_⟩
  rw [run_cons isPart] at sameCount
  obtain ⟨inside, after, split, length, all, -⟩ := run_split isNamePart (tail ++ other)
  obtain ⟨rfl, -⟩ := List.append_inj split (by omega)
  exact all v member

/-- What is read of a text that begins with an operator character. -/
theorem front_operator {u : CodeUnit} {rest : Text} (isOperator : u.isOperator = true)
    (noComment : opensWith "--" (u :: rest) = false) :
    front u rest = .ok (TokenKind.ofOperator ((u :: rest).take (operator u rest)),
      operator u rest) := by
  obtain ⟨c, member, same⟩ := List.any_eq_true.mp isOperator
  obtain rfl := beq_iff_eq.mp same
  rw [front, if_neg (by rw [noComment]; exact Bool.false_ne_true)]
  simp only [operatorCharacters, List.mem_cons, List.not_mem_nil, or_false] at member
  rcases member with rfl | rfl | rfl | rfl | rfl | rfl | rfl | rfl | rfl | rfl | rfl | rfl | rfl |
    rfl | rfl | rfl | rfl | rfl | rfl | rfl <;> rfl

/-- A text that begins with two dashes is read as a line comment. -/
theorem front_dashes {u : CodeUnit} {rest : Text} (opens : opensWith "--" (u :: rest) = true) :
    front u rest = .ok (.lineComment, lineComment (u :: rest)) := by
  rw [front, if_pos opens]

/-- Only a text that begins with an operator character is read as an operator. -/
theorem isOperator_of_front {u : CodeUnit} {rest : Text} {taken : Nat}
    (read : front u rest = .ok (.operator, taken)) : u.isOperator = true := by
  have named : ∀ lexeme : Text, nameKind lexeme u ≠ .operator := by
    intro lexeme
    unfold nameKind
    split
    · exact nofun
    · split
      · exact nofun
      · exact nofun
  have marked : ∀ entry ∈ punctuation, entry.2 ≠ .operator := by decide
  by_cases plain : opensSpecial (u :: rest) = true
  · simp only [opensSpecial, Bool.or_eq_true] at plain
    rcases plain with (opens | opens) | opens
    · obtain ⟨_, same⟩ := (opensWith_iff _ _).mp opens
      rw [(List.cons.inj same).1]
      decide
    · obtain ⟨inner, same⟩ := (opensWith_iff _ _).mp opens
      obtain ⟨rfl, rfl⟩ := List.cons.inj same
      have block : (blockComment (Text.ofString "\x7b-" ++ inner)).map (TokenKind.blockComment, ·) =
            .ok (TokenKind.operator, taken) := read
      cases (map_eq_ok.mp block).1
    · obtain ⟨inner, same⟩ := (opensWith_iff _ _).mp opens
      obtain ⟨rfl, rfl⟩ := List.cons.inj same
      have block : (shader (Text.ofString shaderOpening ++ inner)).map (TokenKind.shader, ·) =
            .ok (TokenKind.operator, taken) := read
      cases (map_eq_ok.mp block).1
  · rw [front_plain plain] at read
    split at read
    · exact absurd (Prod.mk.inj (Except.ok.inj read)).1 (named _)
    split at read
    · cases (map_eq_ok.mp read).1
    split at read
    · cases (map_eq_ok.mp read).1
    split at read
    · cases (map_eq_ok.mp read).1
    split at read
    · rename_i kind found
      exact absurd (Prod.mk.inj (Except.ok.inj read)).1 (marked _ (List.mem_of_find?_eq_some found))
    split at read
    · assumption
    · cases read

/-- No operator goes on where no operator character follows. -/
theorem operatorRun_append {inside other : Text} (reaches : operatorRun inside = inside.length)
    (stops : ∀ v ∈ other.head?, v.isOperator = false) :
    operatorRun (inside ++ other) = inside.length := by
  induction inside with
  | nil =>
    cases other with
    | nil => rfl
    | cons v tail => simp [operatorRun_cons, goesOnOperator, stops v rfl]
  | cons u more ih =>
    rw [operatorRun_cons] at reaches
    by_cases goesOn : goesOnOperator u more = true
    · rw [if_pos goesOn, List.length_cons] at reaches
      have stillGoesOn : goesOnOperator u (more ++ other) = true := by
        apply goesOnOperator_of goesOn
        intro dash
        cases more with
        | nil => exact absurd (stops _ dash) (by decide)
        | cons v further => exact dash
      rw [List.cons_append, operatorRun_cons, if_pos stillGoesOn, ih (by omega),
        List.length_cons, Nat.add_comm]
    · simp [goesOn] at reaches

/-- Every unit of a run of operator characters is one. -/
theorem isOperator_of_operatorRun {inside : Text} (reaches : operatorRun inside = inside.length) :
    ∀ v ∈ inside, v.isOperator = true := by
  induction inside with
  | nil => simp
  | cons u more ih =>
    rw [operatorRun_cons] at reaches
    by_cases goesOn : goesOnOperator u more = true
    · rw [if_pos goesOn, List.length_cons] at reaches
      have first : u.isOperator = true := (Bool.and_eq_true_iff.mp goesOn).1
      intro v member
      cases member with
      | head => exact first
      | tail _ further => exact ih (by omega) v further
    · rw [if_neg goesOn] at reaches
      cases reaches

/-- A token that begins with an operator character and is read to the end of a text is one run of
such characters. -/
theorem operator_of_front {u : CodeUnit} {tail : Text} {kind : TokenKind}
    (isOperator : u.isOperator = true) (read : front u tail = .ok (kind, tail.length + 1))
    (notLine : kind ≠ .lineComment) :
    opensWith "--" (u :: tail) = false ∧ kind = TokenKind.ofOperator (u :: tail) ∧
    operatorRun tail = tail.length ∧ ¬ GivesBackMinus (u :: tail) := by
  have noComment : opensWith "--" (u :: tail) = false := by
    by_contra opens
    rw [front_dashes (by simpa using opens)] at read
    exact notLine (Prod.mk.inj (Except.ok.inj read)).1.symm
  rw [front_operator isOperator noComment] at read
  obtain ⟨sameKind, count⟩ := Prod.mk.inj (Except.ok.inj read)
  rw [count, ← List.length_cons, List.take_length] at sameKind
  obtain ⟨inside, after, split, reaches, -, -⟩ := operatorRun_takes tail
  have length := congrArg List.length split
  rw [List.length_append] at length
  rw [split] at reaches
  have exactly := @operator_eq u _ _ reaches
  rw [← split, count] at exactly
  by_cases givesBack : GivesBackMinus (u :: inside)
  · rw [if_pos givesBack] at exactly
    omega
  · rw [if_neg givesBack] at exactly
    obtain rfl : after = [] := List.eq_nil_of_length_eq_zero (by omega)
    rw [List.append_nil] at split reaches
    subst split
    exact ⟨noComment, sameKind.symm, reaches, givesBack⟩

/-- An operator is read as such where no operator character follows. -/
theorem front_operator_append {u : CodeUnit} {tail other : Text} {kind : TokenKind}
    (isOperator : u.isOperator = true) (read : front u tail = .ok (kind, tail.length + 1))
    (notLine : kind ≠ .lineComment) (stops : ∀ v ∈ other.head?, v.isOperator = false) :
    front u (tail ++ other) = .ok (kind, tail.length + 1) := by
  obtain ⟨noComment, sameKind, reaches, keeps⟩ := operator_of_front isOperator read notLine
  have noComment' : opensWith "--" (u :: (tail ++ other)) = false := by
    by_contra opens
    obtain ⟨rest, same⟩ := (opensWith_iff _ _).mp (by simpa using opens)
    obtain rfl : u = .ofChar '-' := (List.cons.inj same).1
    have second : tail ++ other = .ofChar '-' :: rest := (List.cons.inj same).2
    cases tail with
    | nil =>
      obtain rfl : other = .ofChar '-' :: rest := second
      exact absurd (stops _ rfl) (by decide)
    | cons v more =>
      obtain rfl : v = .ofChar '-' := (List.cons.inj second).1
      cases noComment
  have further := @operator_eq u _ _ (operatorRun_append reaches stops)
  rw [if_neg keeps] at further
  rw [front_operator isOperator noComment', further, take_token, sameKind]

end Scan

/-- A lexeme is read as a token of its kind before a blank or the end. -/
theorem IsLexeme.fronts {kind : TokenKind} {lexeme : Text} (isLexeme : IsLexeme kind lexeme)
    (notEnd : kind ≠ .eof) (notLine : kind ≠ .lineComment) {other : Text}
    (blank : ∀ u ∈ other.head?, Scan.isBlank u = true) : Scan.Fronts kind lexeme other := by
  obtain ⟨source, tokens, scan, token, member, rfl, rfl⟩ := isLexeme
  obtain ⟨_, fronts⟩ := Scan.Divides.fronts ((Scan.scan_eq_ok_iff source tokens).mp scan)
    token member notEnd
  exact fronts.before_blank notLine blank

/-- What is read as a token before the end is a lexeme of its kind. -/
theorem IsLexeme.of_fronts {kind : TokenKind} {lexeme : Text}
    (fronts : Scan.Fronts kind lexeme []) : IsLexeme kind lexeme := by
  obtain ⟨u, tail, rfl, solid, read⟩ := fronts
  have divides := @Scan.Divides.token .start _ _ _ _ _ solid read (.done _)
  rw [List.append_nil] at divides
  exact ⟨u :: tail, _, (Scan.scan_eq_ok_iff _ _).mpr divides, _, .head _, rfl, rfl⟩

namespace Piece

/-! ## Pieces that stand together -/

/-- Punctuation that ends with its one unit, whatever stands behind it. -/
def isBracket (kind : TokenKind) : Bool :=
  kind == .leftParen || kind == .rightParen || kind == .rightBrace || kind == .comma

/-- The second piece may be joined to the first one: behind punctuation of one unit anything may
stand, behind a name a dot, and behind a dot or an operator what does not begin with an operator
character. -/
def Adjoins (first second : Piece) : Prop :=
  isBracket first.kind = true ∨
    (first.kind = .lowerIdentifier ∨ first.kind = .upperIdentifier) ∧ second.kind = .dot ∨
      (first.kind = .dot ∨ first.kind = .operator) ∧ ∀ u ∈ second.lexeme.head?, u.isOperator = false

/-- A possible lexeme of its kind, which is neither a comment nor the end, without line breaks. -/
structure Sound (piece : Piece) : Prop where
  /-- The lexeme is one of its kind. -/
  isLexeme : IsLexeme piece.kind piece.lexeme
  /-- The kind is that of a word. -/
  isWord : piece.kind.isComment = false ∧ piece.kind ≠ .eof
  /-- The piece stands on one line. -/
  oneLine : Text.newline ∉ piece.lexeme

/-- Each piece is sound and may be joined to the one before it, if it is. -/
structure Writable (pieces : List Piece) : Prop where
  /-- Every piece can be written. -/
  sound : ∀ piece ∈ pieces, piece.Sound
  /-- Joined pieces may stand together. -/
  adjoins : pieces.IsChain fun first second => second.joined = true → Adjoins first second

/-- The text of a piece behind which nothing or a blank stands begins with a blank. -/
theorem written_head {rest : List Piece} (loose : ∀ piece ∈ rest.head?, piece.joined = false) :
    ∀ u ∈ (written rest).head?, Scan.isBlank u = true := by
  cases rest with
  | nil => simp [written]
  | cons piece others =>
    have notJoined := loose piece rfl
    simp only [written, List.flatMap_cons, text, notJoined]
    intro u first
    obtain rfl : u = .ofChar ' ' := (Option.some.inj first).symm
    rfl

/-- A piece is no line comment. -/
theorem Sound.notLine {piece : Piece} (sound : piece.Sound) : piece.kind ≠ .lineComment := by
  intro isLine
  have noComment := sound.isWord.1
  rw [isLine] at noComment
  cases noComment

/-- A piece is read as a token of its kind before a blank or the end. -/
theorem Sound.fronts {piece : Piece} (sound : piece.Sound) {other : Text}
    (blank : ∀ u ∈ other.head?, Scan.isBlank u = true) :
    Scan.Fronts piece.kind piece.lexeme other :=
  sound.isLexeme.fronts sound.isWord.2 sound.notLine blank

/-- The lexeme of a piece is not empty. -/
theorem Sound.lexeme_ne_nil {piece : Piece} (sound : piece.Sound) : piece.lexeme ≠ [] := by
  have nothing : ∀ u ∈ ([] : Text).head?, Scan.isBlank u = true := by simp
  obtain ⟨u, tail, same, -⟩ := sound.fronts nothing
  rw [same]
  exact List.cons_ne_nil u tail

/-- Punctuation of one unit is read as such whatever stands behind it. -/
theorem fronts_bracket {kind : TokenKind} {lexeme : Text} (bracket : isBracket kind = true)
    (shape : Scan.Shape kind lexeme) (other : Text) : Scan.Fronts kind lexeme other := by
  simp only [isBracket, Bool.or_eq_true, beq_iff_eq] at bracket
  rcases bracket with ((rfl | rfl) | rfl) | rfl
  · obtain ⟨word, isMark, rfl⟩ := shape
    obtain rfl := Option.some.inj isMark
    exact ⟨.ofChar '(', [], rfl, rfl, rfl⟩
  · obtain ⟨word, isMark, rfl⟩ := shape
    obtain rfl := Option.some.inj isMark
    exact ⟨.ofChar ')', [], rfl, rfl, rfl⟩
  · obtain ⟨word, isMark, rfl⟩ := shape
    obtain rfl := Option.some.inj isMark
    exact ⟨.ofChar '}', [], rfl, rfl, rfl⟩
  · obtain ⟨word, isMark, rfl⟩ := shape
    obtain rfl := Option.some.inj isMark
    exact ⟨.ofChar ',', [], rfl, rfl, rfl⟩

/-- A name begins as a name does and goes on with parts of a name. -/
theorem fronts_isName {kind : TokenKind} {lexeme : Text} (fronts : Scan.Fronts kind lexeme [])
    (isName : kind = .lowerIdentifier ∨ kind = .upperIdentifier) :
    ∃ u tail, lexeme = u :: tail ∧ Scan.isBlank u = false ∧ Scan.isNameStart u = true ∧
      kind = Scan.nameKind (u :: tail) u ∧ ∀ v ∈ tail, Scan.isNamePart v = true := by
  obtain ⟨u, tail, rfl, solid, read⟩ := fronts
  have isStart : Scan.isNameStart u = true := by
    obtain ⟨tail', after, same, length, token⟩ := Scan.front_takes read
    obtain ⟨rfl, -⟩ := List.append_inj same (by omega)
    have shape := token.shape
    rcases isName with rfl | rfl
    · obtain ⟨v, rest, same, isStart, -⟩ := shape
      rw [(List.cons.inj same).1]
      exact isStart
    · obtain ⟨v, rest, same, isUpper⟩ := shape
      rw [(List.cons.inj same).1]
      simp [Scan.isNameStart, isUpper]
  exact ⟨u, tail, rfl, solid, isStart, Scan.nameParts_of_front isStart read⟩

/-- A name is read as such where no further part of a name follows. -/
theorem fronts_name {kind : TokenKind} {lexeme other : Text} (fronts : Scan.Fronts kind lexeme [])
    (isName : kind = .lowerIdentifier ∨ kind = .upperIdentifier)
    (stops : ∀ u ∈ other.head?, Scan.isNamePart u = false) : Scan.Fronts kind lexeme other := by
  obtain ⟨u, tail, rfl, solid, isStart, sameKind, parts⟩ := fronts_isName fronts isName
  refine ⟨u, tail, rfl, solid, ?_⟩
  rw [Scan.front_name isStart parts stops, sameKind]

/-- A dot or an operator begins with an operator character. -/
theorem fronts_isOperator {kind : TokenKind} {lexeme : Text} (fronts : Scan.Fronts kind lexeme [])
    (isOperator : kind = .dot ∨ kind = .operator) :
    ∃ u tail, lexeme = u :: tail ∧ Scan.isBlank u = false ∧ u.isOperator = true ∧
      kind ≠ .lineComment ∧ Scan.front u tail = .ok (kind, tail.length + 1) := by
  obtain ⟨u, tail, rfl, solid, read⟩ := fronts
  have isCharacter : u.isOperator = true := by
    rcases isOperator with rfl | rfl
    · obtain ⟨tail', after, same, length, token⟩ := Scan.front_takes read
      obtain ⟨rfl, -⟩ := List.append_inj same (by omega)
      obtain ⟨word, isMark, lexeme⟩ := token.shape
      obtain rfl := Option.some.inj isMark
      rw [(List.cons.inj lexeme).1]
      decide
    · exact Scan.isOperator_of_front read
  have notLine : kind ≠ .lineComment := by
    rcases isOperator with rfl | rfl <;> exact nofun
  rw [List.append_nil] at read
  exact ⟨u, tail, rfl, solid, isCharacter, notLine, read⟩

/-- A dot or an operator is read as such where no operator character follows. -/
theorem fronts_operator {kind : TokenKind} {lexeme other : Text}
    (fronts : Scan.Fronts kind lexeme []) (isOperator : kind = .dot ∨ kind = .operator)
    (stops : ∀ u ∈ other.head?, u.isOperator = false) : Scan.Fronts kind lexeme other := by
  obtain ⟨u, tail, rfl, solid, isCharacter, notLine, read⟩ := fronts_isOperator fronts isOperator
  exact ⟨u, tail, rfl, solid, Scan.front_operator_append isCharacter read notLine stops⟩

/-- A piece that may be joined is read as a token of its kind before the other one. -/
theorem Adjoins.fronts {first second : Piece} (adjoins : Adjoins first second) (sound : first.Sound)
    (second_sound : second.Sound) (rest : Text) :
    Scan.Fronts first.kind first.lexeme (second.lexeme ++ rest) := by
  have alone : Scan.Fronts first.kind first.lexeme [] := sound.fronts (by simp)
  have sameHead : (second.lexeme ++ rest).head? = second.lexeme.head? := by
    cases spelled : second.lexeme with
    | nil => exact absurd spelled second_sound.lexeme_ne_nil
    | cons u tail => rfl
  rcases adjoins with bracket | ⟨isName, isDot⟩ | ⟨isOperator, stops⟩
  · obtain ⟨source, found, scan, token, member, sameKind, sameLexeme⟩ := sound.isLexeme
    have shape := ((Scan.scan_eq_ok_iff source found).mp scan).shape token member
    rw [sameKind, sameLexeme] at shape
    exact fronts_bracket bracket shape _
  · apply fronts_name alone isName
    rw [sameHead]
    obtain ⟨source, found, scan, token, member, sameKind, sameLexeme⟩ := second_sound.isLexeme
    have shape := ((Scan.scan_eq_ok_iff source found).mp scan).shape token member
    rw [sameKind, sameLexeme, isDot] at shape
    obtain ⟨word, isMark, lexeme⟩ := shape
    obtain rfl := Option.some.inj isMark
    rw [lexeme]
    intro u first
    obtain rfl := Option.some.inj first
    decide
  · apply fronts_operator alone isOperator
    rw [sameHead]
    exact stops

/-- Pieces that can be written are the tokens of their text. -/
theorem Writable.divides {pieces : List Piece} (writable : Writable pieces) (position : Position) :
    Scan.Divides position (written pieces) (tokens position pieces) := by
  induction pieces generalizing position with
  | nil => exact .done position
  | cons piece rest ih =>
    have sound := writable.sound piece (.head _)
    have fronts : Scan.Fronts piece.kind piece.lexeme (written rest) := by
      cases rest with
      | nil => exact sound.fronts (by simp [written])
      | cons next others =>
        by_cases joined : next.joined = true
        · have adjoins := (List.isChain_cons_cons.mp writable.adjoins).1 joined
          have read := adjoins.fronts sound (writable.sound next (.tail _ (.head _)))
            (written others)
          rw [written, List.flatMap_cons, text, if_pos joined]
          exact read
        · exact sound.fronts (written_head
              fun _ first => by simpa [← Option.some.inj first] using joined)
    obtain ⟨u, tail, lexeme, solid, read⟩ := fronts
    have further := ih ⟨fun other member => writable.sound other (.tail _ member),
      writable.adjoins.tail⟩ (piece.stop position)
    have atStart : Scan.Divides (piece.start position) (piece.lexeme ++ written rest)
        (piece.token position :: tokens (piece.stop position) rest) := by
      rw [token, stop, lexeme]
      rw [stop, lexeme] at further
      exact .token solid read further
    rw [written, List.flatMap_cons, text]
    by_cases joined : piece.joined = true
    · rw [if_pos joined]
      rw [start, if_pos joined] at atStart
      exact atStart
    · rw [if_neg joined]
      rw [start, if_neg joined] at atStart
      exact .blank rfl atStart

end Piece

end Marginalia
