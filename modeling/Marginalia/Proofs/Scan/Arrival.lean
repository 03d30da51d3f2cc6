import Marginalia.Proofs.Scan.Extent

/-!
# Places that scanning comes to

Scanning goes from place to place, over a blank or over a token each time, until a token cannot be
read or nothing is left. `Arrives` says that it comes to a place, and which tokens were found on the
way. What is read there is found also where scanning fails later on.
-/

namespace Marginalia.Scan

/-- Scanning a source comes to a position with some tokens found and some text left. -/
inductive Arrives (source : Text) : List Token → Position → Text → Prop where
  | start : Arrives source [] .start source
  | blank {found : List Token} {position : Position} {u : CodeUnit} {rest : Text}
      (blank : isBlank u = true) (before : Arrives source found position (u :: rest)) :
      Arrives source found (position.step u) rest
  | token {found : List Token} {position : Position} {u : CodeUnit} {tail rest : Text}
      {kind : TokenKind} (solid : isBlank u = false)
      (read : front u (tail ++ rest) = .ok (kind, tail.length + 1))
      (before : Arrives source found position (u :: (tail ++ rest))) :
      Arrives source (found ++ [⟨kind, u :: tail, ⟨position, position.advance (u :: tail)⟩⟩])
        (position.advance (u :: tail)) rest

namespace Arrives

variable {source text : Text} {found : List Token} {position : Position}

/-- The text that is left is the end of the source, and the position is the place behind the rest of
it. -/
theorem split (arrives : Arrives source found position text) :
    ∃ before, source = before ++ text ∧ position = Position.start.advance before := by
  induction arrives with
  | start => exact ⟨[], rfl, rfl⟩
  | @blank _ position u rest _ _ ih =>
    obtain ⟨before, rfl, rfl⟩ := ih
    refine ⟨before ++ [u], by simp, ?_⟩
    rw [Position.advance_append]
    rfl
  | @token _ position u tail rest kind _ _ _ ih =>
    obtain ⟨before, rfl, rfl⟩ := ih
    refine ⟨before ++ (u :: tail), by simp, ?_⟩
    rw [Position.advance_append]

/-- The offset tells which text is left. -/
theorem text_eq (arrives : Arrives source found position text) :
    text = source.drop position.offset := by
  obtain ⟨before, rfl, rfl⟩ := arrives.split
  have offset : (Position.start.advance before).offset = before.length := by
    rw [Position.offset_advance]
    exact Nat.zero_add _
  rw [offset, List.drop_left]

/-- Scanning goes on from where it has come to. -/
theorem scan (arrives : Arrives source found position text) :
    Token.scan source = (tokens position text).map (found ++ ·) := by
  induction arrives with
  | start =>
    show tokens .start source = (tokens .start source).map ([] ++ ·)
    cases tokens .start source <;> rfl
  | blank blank _ ih => rw [ih, tokens_blank blank]
  | @token _ position u tail rest kind solid read _ ih =>
    rw [ih, tokens_token solid read]
    cases tokens (position.advance (u :: tail)) rest with
    | error error => rfl
    | ok following => simp [Except.map]

/-- Where a token cannot be read, scanning fails. -/
theorem scan_fault {u : CodeUnit} {rest : Text} {stop : Stop}
    (arrives : Arrives source found position (u :: rest)) (solid : isBlank u = false)
    (fault : front u rest = .error stop) : ∃ error, Token.scan source = .error error := by
  rw [arrives.scan, tokens_fault solid fault]
  exact ⟨_, rfl⟩

/-- Scanning that fails had come to a place where no token can be read, and its error is about what
was looked at there. -/
theorem fault {error : ScanError} (arrives : Arrives source found position text)
    (fault : tokens position text = .error error) :
    ∃ earlier place u rest stop, Arrives source earlier place (u :: rest) ∧
      front u rest = .error stop ∧
      error = ⟨stop.fault, ⟨place, place.advance ((u :: rest).take stop.read)⟩⟩ := by
  induction length : text.length using Nat.strongRecOn generalizing position text found with
  | _ size ih =>
    subst length
    cases text with
    | nil =>
      rw [tokens] at fault
      cases fault
    | cons u rest =>
      by_cases blank : isBlank u = true
      · rw [tokens_blank blank] at fault
        exact ih rest.length (by simp) (.blank blank arrives) fault rfl
      · have solid : isBlank u = false := by simpa using blank
        cases read : front u rest with
        | error stop =>
          rw [tokens_fault solid read] at fault
          exact ⟨found, position, u, rest, stop, arrives, read, (Except.error.inj fault).symm⟩
        | ok result =>
          obtain ⟨kind, taken⟩ := result
          obtain ⟨tail, after, rfl, rfl, -⟩ := front_takes read
          rw [tokens_token solid read] at fault
          cases following : tokens (position.advance (u :: tail)) after with
          | ok tokens => simp [following, Except.map] at fault
          | error _ =>
            rw [following] at fault
            obtain rfl := Except.error.inj fault
            refine ih after.length ?_ (.token solid read arrives) following rfl
            simp only [List.length_cons, List.length_append]
            omega

/-- The last token that was found was read at the front of the text that was left where it
starts. -/
theorem last {earlier : List Token} {token : Token}
    (arrives : Arrives source (earlier ++ [token]) position text) :
    ∃ u tail rest, token.lexeme = u :: tail ∧
      Arrives source earlier token.span.start (u :: (tail ++ rest)) ∧
      front u (tail ++ rest) = .ok (token.kind, tail.length + 1) := by
  generalize all : earlier ++ [token] = found at arrives
  induction arrives with
  | start => simp at all
  | blank _ _ ih => exact ih all
  | @token found position u tail rest kind _ read before =>
    obtain ⟨rfl, same⟩ := List.append_inj' all rfl
    obtain rfl := List.singleton_inj.mp same
    exact ⟨u, tail, rest, rfl, before, read⟩

/-- Where scanning has come to, a token is found exactly if it is read at the front of the text that
is left. -/
theorem found_iff {u : CodeUnit} {tail rest : Text} {kind : TokenKind} (solid : isBlank u = false)
    (arrives : Arrives source found position (u :: (tail ++ rest))) :
    Arrives source (found ++ [⟨kind, u :: tail, ⟨position, position.advance (u :: tail)⟩⟩])
        (position.advance (u :: tail)) rest ↔
      front u (tail ++ rest) = .ok (kind, tail.length + 1) := by
  refine ⟨fun behind => ?_, fun read => .token solid read arrives⟩
  obtain ⟨v, other, after, lexeme, before, read⟩ := behind.last
  obtain ⟨rfl, rfl⟩ := List.cons.inj lexeme
  -- the text that is left is told by the offset, so the token was read at the same text
  have same := before.text_eq.trans arrives.text_eq.symm
  obtain rfl := List.append_cancel_left (List.cons.inj same).2
  exact read

end Arrives

/-- Every token of a source was found where scanning had come to. -/
theorem Divides.arrives {source text : Text} {found earlier before after : List Token}
    {position : Position} {token : Token} (divides : Divides position text found)
    (arrives : Arrives source earlier position text) (split : found = before ++ token :: after)
    (notEnd : token.kind ≠ .eof) :
    ∃ place u tail rest, Arrives source (earlier ++ before) place (u :: (tail ++ rest)) ∧
      isBlank u = false ∧ front u (tail ++ rest) = .ok (token.kind, tail.length + 1) ∧
      token = ⟨token.kind, u :: tail, ⟨place, place.advance (u :: tail)⟩⟩ ∧
      Divides (place.advance (u :: tail)) rest after := by
  induction divides generalizing earlier before with
  | done position =>
    cases before with
    | nil =>
      obtain ⟨rfl, -⟩ := List.cons.inj split
      exact absurd rfl notEnd
    | cons other others => simp at split
  | blank blank _ ih => exact ih (.blank blank arrives) split
  | @token position u tail rest kind tokens solid read further ih =>
    cases before with
    | nil =>
      obtain ⟨rfl, rfl⟩ := List.cons.inj split
      rw [List.append_nil]
      exact ⟨position, u, tail, rest, arrives, solid, read, rfl, further⟩
    | cons other others =>
      obtain ⟨rfl, later⟩ := List.cons.inj split
      have inner := ih (.token solid read arrives) later
      rwa [List.append_assoc, List.singleton_append] at inner

end Marginalia.Scan
