import Marginalia.Proofs.Scan.Reach

/-!
# How a source divides into tokens

`Divides` is the division of a text into blanks and tokens as a derivation, one rule for each thing
that can stand at the front. Scanning succeeds exactly where there is a derivation, so every
statement about the tokens of a source is an induction over derivations.
-/

namespace Marginalia.Scan

/-- The text at a position divides into tokens, with blanks between them and the end of the source
behind them. -/
inductive Divides : Position → Text → List Token → Prop where
  | done (position : Position) : Divides position [] [⟨.eof, [], ⟨position, position⟩⟩]
  | blank {position : Position} {u : CodeUnit} {rest : Text} {tokens : List Token}
      (blank : isBlank u = true) (further : Divides (position.step u) rest tokens) :
      Divides position (u :: rest) tokens
  | token {position : Position} {u : CodeUnit} {tail rest : Text} {kind : TokenKind}
      {tokens : List Token} (solid : isBlank u = false)
      (read : front u (tail ++ rest) = .ok (kind, tail.length + 1))
      (further : Divides (position.advance (u :: tail)) rest tokens) : Divides position (u ::
        (tail ++ rest)) (⟨kind, u :: tail, ⟨position, position.advance (u :: tail)⟩⟩ :: tokens)

/-- A blank is passed over. -/
theorem tokens_blank {u : CodeUnit} (blank : isBlank u = true) (position : Position) (rest : Text) :
    tokens position (u :: rest) = tokens (position.step u) rest := by
  rw [tokens, if_pos blank]

/-- A token is followed by the tokens of what stands behind it. -/
theorem tokens_token {u : CodeUnit} {tail rest : Text} {kind : TokenKind}
    (solid : isBlank u = false)
    (read : front u (tail ++ rest) = .ok (kind, tail.length + 1)) (position : Position) :
    tokens position (u :: (tail ++ rest)) = (tokens (position.advance (u :: tail)) rest).map
      (⟨kind, u :: tail, ⟨position, position.advance (u :: tail)⟩⟩ :: ·) := by
  have goesOver : advanceBy position (tail.length + 1) (u :: (tail ++ rest)) =
        .ok (position.advance (u :: tail)) := by
    rw [advanceBy_of_le (by simp), take_token]
  rw [tokens, if_neg (by simp [solid]), read]
  dsimp only
  rw [goesOver]
  simp only [Nat.add_sub_cancel, List.take_left, List.drop_left]
  cases tokens (position.advance (u :: tail)) rest <;> rfl

/-- Where a token cannot be read, scanning fails. -/
theorem tokens_fault {u : CodeUnit} {rest : Text} {stop : Stop} (solid : isBlank u = false)
    (fault : front u rest = .error stop) (position : Position) :
    tokens position (u :: rest) =
      .error ⟨stop.fault, ⟨position, position.advance ((u :: rest).take stop.read)⟩⟩ := by
  have within : stop.read ≤ (u :: rest).length := (front_stops u rest stop fault).2
  have goesOver := advanceBy_of_le within position
  rw [tokens, if_neg (by simp [solid]), fault]
  dsimp only
  rw [goesOver]

/-- Tokens that are scanned are derived. -/
theorem divides_of_tokens {position : Position} {text : Text} {found : List Token}
    (scanned : tokens position text = .ok found) : Divides position text found := by
  induction length : text.length using Nat.strongRecOn generalizing position text found with
  | _ size ih =>
    subst length
    cases text with
    | nil =>
      rw [tokens] at scanned
      obtain rfl := Except.ok.inj scanned
      exact .done position
    | cons u rest =>
      by_cases blank : isBlank u = true
      · rw [tokens_blank blank] at scanned
        exact .blank blank (ih rest.length (by simp) scanned rfl)
      · have solid : isBlank u = false := by simpa using blank
        cases read : front u rest with
        | error stop =>
          rw [tokens_fault solid read] at scanned
          cases scanned
        | ok result =>
          obtain ⟨kind, taken⟩ := result
          obtain ⟨tail, after, rfl, rfl, -⟩ := front_takes read
          rw [tokens_token solid read] at scanned
          cases following : tokens (position.advance (u :: tail)) after with
          | error error => simp [following, Except.map] at scanned
          | ok tokens =>
            rw [following] at scanned
            obtain rfl := Except.ok.inj scanned
            refine .token solid read (ih after.length ?_ following rfl)
            simp only [List.length_cons, List.length_append]
            omega

/-- Tokens that are derived are scanned. -/
theorem Divides.tokens {position : Position} {text : Text} {found : List Token}
    (divides : Divides position text found) : tokens position text = .ok found := by
  induction divides with
  | done position => rw [Scan.tokens]
  | blank blank _ ih => rw [tokens_blank blank, ih]
  | token solid read _ ih =>
    rw [tokens_token solid read, ih]
    rfl

/-- Scanning succeeds exactly with the tokens that a source divides into. -/
theorem scan_eq_ok_iff (source : Text) (found : List Token) :
    Token.scan source = .ok found ↔ Divides .start source found :=
  ⟨divides_of_tokens, Divides.tokens⟩

/-! ## What holds of all tokens -/

/-- Only an empty lexeme has the shape of the end of the source. -/
theorem Shape.ne_eof {kind : TokenKind} {u : CodeUnit} {tail : Text}
    (shape : Shape kind (u :: tail)) : kind ≠ .eof := by
  rintro rfl
  cases shape

/-- Every token has the shape of its kind. -/
theorem Divides.shape {position : Position} {text : Text} {found : List Token}
    (divides : Divides position text found) : ∀ token ∈ found, Shape token.kind token.lexeme := by
  induction divides with
  | done position => simp [Shape]
  | blank _ _ ih => exact ih
  | token _ read _ ih =>
    obtain ⟨tail, after, same, length, token⟩ := front_takes read
    obtain ⟨rfl, rfl⟩ := List.append_inj same (by omega)
    simpa using ⟨token.shape, ih⟩

/-- The end of the source is the last token and no other one. -/
theorem Divides.closed {position : Position} {text : Text} {found : List Token}
    (divides : Divides position text found) :
    ∃ inner stop, found = inner ++ [⟨.eof, [], ⟨stop, stop⟩⟩] ∧
      ∀ token ∈ inner, token.kind ≠ .eof := by
  induction divides with
  | done position => exact ⟨[], position, rfl, by simp⟩
  | blank _ _ ih => exact ih
  | token _ read _ ih =>
    obtain ⟨inner, stop, rfl, solid⟩ := ih
    obtain ⟨tail, after, same, length, token⟩ := front_takes read
    obtain ⟨rfl, rfl⟩ := List.append_inj same (by omega)
    exact ⟨_ :: inner, stop, rfl, by simpa using ⟨token.shape.ne_eof, solid⟩⟩

end Marginalia.Scan
