import Marginalia.Proofs.Writing.Word

/-!
# Literals of tokens

A token for a number, a string or a character stands for a literal, and the grammar reads that
literal wherever the token is the next one. The literal of a string or a character spells its token:
the quotes that it does not keep are told by its form.
-/

namespace Marginalia
open Marginalia.Parser Marginalia.Grammar

/-- The literal that a token stands for, if it stands for one. -/
def Token.literal? (token : Token) : Option Literal :=
  match token.kind with
  | .string => some (.ofString token.lexeme)
  | .char => some (.ofCharacter token.lexeme)
  | .number => Literal.ofNumber? token.lexeme
  | _ => none

/-- A token that stands for a literal is a number, a string or a character. -/
theorem Token.kind_of_literal? {token : Token} {value : Literal}
    (stands : token.literal? = some value) :
    token.kind = .number ∨ token.kind = .string ∨ token.kind = .char := by
  rw [literal?] at stands
  split at stands
  · exact .inr (.inl ‹_›)
  · exact .inr (.inr ‹_›)
  · exact .inl ‹_›
  · cases stands

namespace Grammar

variable {input : Input} {start stop : Cursor} {token : Token} {value : Literal}

/-- The literal that the next token stands for is read. -/
theorem literal_of_token (next : input.tokenAt? start.index = some token)
    (adjacent : StartsAt token start) (stands : token.literal? = some value) :
    literal input start = .done value (past token start) := by
  have kinds := Token.kind_of_literal? stands
  have readable : Readable (fun token =>
        token.kind == .number || token.kind == .string || token.kind == .char) token start := by
    refine ⟨adjacent, ?_, ?_⟩ <;> rcases kinds with kind | kind | kind <;>
      simp [Token.isComment, TokenKind.isComment, kind]
  rw [literal, bind_apply, satisfy_apply]
  simp only [next, if_pos readable]
  rw [Token.literal?] at stands
  rcases kinds with kind | kind | kind <;> simp only [kind] at stands ⊢
  · simp only [stands]
    rfl
  · rw [← Option.some.inj stands]
    rfl
  · rw [← Option.some.inj stands]
    rfl

/-- A literal that is read is the one that the next token stands for. -/
theorem literal_done (run : literal input start = .done value stop) :
    ∃ token, input.tokenAt? start.index = some token ∧ StartsAt token start ∧
      token.literal? = some value ∧ stop = past token start := by
  obtain ⟨token, middle, read, further⟩ := bind_done.mp run
  obtain ⟨next, ⟨adjacent, -, holds⟩, rfl⟩ := satisfy_done read
  refine ⟨token, next, adjacent, ?_⟩
  simp only [Bool.or_eq_true, beq_iff_eq] at holds
  rw [Token.literal?]
  rcases holds with (kind | kind) | kind <;> simp only [kind] at further ⊢
  · cases number : Literal.ofNumber? token.lexeme with
    | none =>
      rw [number] at further
      cases further
    | some found =>
      rw [number] at further
      obtain ⟨rfl, rfl⟩ := Outcome.done.inj further
      exact ⟨rfl, rfl⟩
  · obtain ⟨rfl, rfl⟩ := Outcome.done.inj further
    exact ⟨rfl, rfl⟩
  · obtain ⟨rfl, rfl⟩ := Outcome.done.inj further
    exact ⟨rfl, rfl⟩

end Grammar

/-- The literal of a string token spells the token. -/
theorem Literal.spelling_ofString {lexeme : Text} (shape : Scan.Shape .string lexeme) :
    ∃ text multiline, ofString lexeme = string text multiline ∧
      (string text multiline).spelling = lexeme := by
  have chosen : ofString lexeme =
      if Scan.opensWith Scan.tripleQuote lexeme then string (lexeme.trimEnds 3 3) true
      else string (lexeme.trimEnds 1 1) false := rfl
  rcases shape with ⟨body, rfl⟩ | ⟨notTriple, body, rfl⟩
  · refine ⟨body, true, ?_, rfl⟩
    have inside := trimEnds_append (Text.ofString Scan.tripleQuote) body
      (Text.ofString Scan.tripleQuote)
    rw [show (Text.ofString Scan.tripleQuote).length = 3 from rfl] at inside
    rw [chosen, if_pos (Scan.opensWith_append Scan.tripleQuote _), inside]
  · refine ⟨body, false, ?_, rfl⟩
    have inside := trimEnds_append (Text.ofString "\"") body (Text.ofString "\"")
    rw [show (Text.ofString "\"").length = 1 from rfl] at inside
    rw [chosen, if_neg (Bool.eq_false_iff.mp notTriple), inside]

/-- The literal of a character token spells the token. -/
theorem Literal.spelling_ofCharacter {lexeme : Text} (shape : Scan.Shape .char lexeme) :
    ∃ text, ofCharacter lexeme = character text ∧ (character text).spelling = lexeme := by
  obtain ⟨body, rfl⟩ := shape
  have inside := trimEnds_append (Text.ofString "'") body (Text.ofString "'")
  rw [show (Text.ofString "'").length = 1 from rfl] at inside
  exact ⟨body, by rw [ofCharacter, inside], rfl⟩

/-- The literal of a number token is a number. -/
theorem Literal.tokenKind_ofNumber? {lexeme : Text} {number : Literal}
    (found : ofNumber? lexeme = some number) : number.tokenKind = .number := by
  rw [ofNumber?] at found
  split at found
  · obtain ⟨value, -, rfl⟩ := Option.map_eq_some_iff.mp found
    rfl
  · split at found
    · rw [← Option.some.inj found]
      rfl
    · split at found
      · rw [← Option.some.inj found]
        rfl
      · obtain ⟨value, -, rfl⟩ := Option.map_eq_some_iff.mp found
        rfl

/-- The literal of a token is of the same sort, and it spells the token unless it is a number. -/
theorem Token.spells_of_literal? {token : Token} {value : Literal}
    (shape : Scan.Shape token.kind token.lexeme) (stands : token.literal? = some value) :
    value.tokenKind = token.kind ∧ (token.kind ≠ .number → value.spelling = token.lexeme) := by
  have kinds := kind_of_literal? stands
  rw [literal?] at stands
  rcases kinds with kind | kind | kind <;> simp only [kind] at shape stands ⊢
  · exact ⟨Literal.tokenKind_ofNumber? stands, fun some => absurd rfl some⟩
  · obtain ⟨text, multiline, same, spells⟩ := Literal.spelling_ofString shape
    obtain rfl := same.symm.trans (Option.some.inj stands)
    exact ⟨rfl, fun _ => spells⟩
  · obtain ⟨text, same, spells⟩ := Literal.spelling_ofCharacter shape
    obtain rfl := same.symm.trans (Option.some.inj stands)
    exact ⟨rfl, fun _ => spells⟩

end Marginalia
