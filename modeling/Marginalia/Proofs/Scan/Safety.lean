import Marginalia.Proofs.Blanking.Tokens
import Marginalia.Proofs.Diagnosis.Place
import Marginalia.Proofs.Scan.Arrival

/-!
# Scanning is safe

Wherever scanning comes to, it takes one unit at least and none that is not there, so it ends for
every source. When it ends with an error, it had come to a place where no token can be read. The
tokens found before that place depend on nothing behind it: cut there, the source divides into them.

Main statement: `scan_safe`.
-/

namespace Marginalia

namespace Scan

variable {source text kept rest : Text} {found more : List Token} {position : Position}

/-! ## Cutting a source -/

/-- The end may stand behind a token in place of any text. -/
theorem Boundary.nil (rest : Text) : Boundary rest [] := ⟨.stops nofun, fun _ => .inr nofun⟩

/-- Before a blank, the text may be cut where it may be cut behind the blank. -/
theorem Boundary.blank {u : CodeUnit} (blank : isBlank u = true)
    (boundary : Boundary (kept ++ rest) kept) : Boundary (u :: (kept ++ rest)) (u :: kept) where
  fades := .goesOn u boundary.fades
  dashes _ := .inr fun _ first => Option.some.inj first ▸ blank

/-- Before a token, the text may be cut where it may be cut behind the token. -/
theorem Boundary.token {u : CodeUnit} {tail : Text} {kind : TokenKind}
    (read : front u (tail ++ (kept ++ rest)) = .ok (kind, tail.length + 1))
    (boundary : Boundary (kept ++ rest) kept) :
    Boundary (u :: (tail ++ (kept ++ rest))) (u :: (tail ++ kept)) where
  fades := boundary.fades.append (u :: tail)
  dashes opens := by
    -- two dashes are read as a line comment, which takes both of them
    obtain ⟨tail', after, same, length, front⟩ := front_takes read
    obtain ⟨rfl, rfl⟩ := List.append_inj same (by omega)
    rw [Scan.front, if_pos opens] at read
    obtain ⟨rfl, -⟩ := Prod.mk.inj (Except.ok.inj read)
    obtain ⟨body, lexeme⟩ := front.shape
    left
    rw [← List.cons_append, lexeme, List.append_assoc]
    exact opensWith_append _ _

/-- A token is read in the same way if the text behind it is cut. -/
theorem front_cut {u : CodeUnit} {tail : Text} {kind : TokenKind}
    (read : front u (tail ++ (kept ++ rest)) = .ok (kind, tail.length + 1))
    (boundary : Boundary (kept ++ rest) kept) :
    front u (tail ++ kept) = .ok (kind, tail.length + 1) := by
  obtain ⟨tail', after, same, length, token⟩ := front_takes read
  obtain ⟨rfl, rfl⟩ := List.append_inj same (by omega)
  refine token.stays kept boundary fun isLine v first => ?_
  subst isLine
  cases kept with
  | nil => cases first
  | cons w others => exact endsLine_of_line read v first

/-- Cut where the text that is left may be cut, a source divides into the tokens that were found and
those of the text that is kept. -/
theorem Arrives.cut (arrives : Arrives source found position text) (split : text = kept ++ rest)
    (divides : Divides position kept more) (boundary : Boundary (kept ++ rest) kept) :
    ∃ before, source = before ++ rest ∧ Divides .start before (found ++ more) := by
  induction arrives generalizing kept more with
  | start => exact ⟨kept, split, divides⟩
  | @blank _ position u _ blank _ ih =>
    subst split
    exact ih rfl (.blank blank divides) (boundary.blank blank)
  | @token found position u tail _ kind solid read _ ih =>
    subst split
    have split : u :: (tail ++ (kept ++ rest)) = u :: (tail ++ kept) ++ rest := by simp
    obtain ⟨before, whole, again⟩ := ih split
      (.token solid (front_cut read boundary) divides) (by simpa using boundary.token read)
    exact ⟨before, whole, by simpa using again⟩

/-! ## Progress -/

/-- What is read at the front of a text takes one unit at least, and goes over no more units than
are left. -/
theorem front_progress (first : CodeUnit) (rest : Text) :
    (∃ kind taken, front first rest = .ok (kind, taken) ∧ 1 ≤ taken ∧ taken ≤ rest.length + 1) ∨
      ∃ stop, front first rest = .error stop ∧ stop.read ≤ rest.length + 1 := by
  cases read : front first rest with
  | error stop => exact .inr ⟨stop, rfl, (front_stops first rest stop read).2⟩
  | ok result =>
    obtain ⟨kind, taken⟩ := result
    obtain ⟨tail, after, rfl, rfl, -⟩ := front_takes read
    refine .inl ⟨kind, _, rfl, Nat.le_add_left 1 _, ?_⟩
    rw [List.length_append]
    omega

end Scan

/-! ## Safety -/

/-- Only the fault of going past the end is worded so. -/
theorem ScanFault.message_ne {fault : ScanFault} (known : fault ≠ .pastEnd) :
    fault.message ≠ "Advanced past end of input" := by
  have first : (Text.ofString "Advanced past end of input").head? = some (.ofChar 'A') := rfl
  intro same
  have other : fault.message.head? = some (.ofChar 'U') ∨ fault.message.head? = some (.ofChar 'C') ∨
      fault.message.head? = some (.ofChar 'I') ∨ fault.message.head? = some (.ofChar 'E') := by
    cases fault with
    | unexpected u => exact .inl rfl
    | unterminatedLiteral literal => cases literal <;> exact .inl rfl
    | notOneCharacter => exact .inr (.inl rfl)
    | invalidEscape escaped => exact .inr (.inr (.inl rfl))
    | unterminatedUnicodeEscape => exact .inl rfl
    | missingHexDigits => exact .inr (.inr (.inr rfl))
    | unterminatedBlockComment => exact .inl rfl
    | unterminatedShader => exact .inl rfl
    | pastEnd => exact absurd rfl known
  rw [same, first] at other
  revert other
  decide

/-- What an error of scanning says of the source holds of it. -/
structure ScanError.Holds (source : Text) (error : ScanError) : Prop where
  /-- The error is not the one of a reader that goes past the end. -/
  known : error.message ≠ "Advanced past end of input"
  /-- It does not end before it begins. -/
  ordered : error.span.start.offset ≤ error.span.stop.offset
  /-- It ends within the source. -/
  inside : error.span.stop.offset ≤ source.length
  /-- Lines and columns are those that counting gives. -/
  places : error.span.Counted source
  /-- All before it can be scanned. -/
  before : ∃ tokens, Token.scan (source.take error.span.start.offset) = .ok tokens

/-- An error of scanning holds of its source. -/
theorem ScanError.holds_of_scan {source : Text} {error : ScanError}
    (fault : Token.scan source = .error error) : error.Holds source := by
  have places := Token.counted_of_scan fault
  obtain ⟨found, place, u, rest, stop, arrives, read, same⟩ := Scan.Arrives.start.fault fault
  obtain ⟨known, -⟩ := Scan.front_stops u rest stop read
  obtain ⟨before, whole, divides⟩ := arrives.cut (List.nil_append _).symm (.done place) (.nil _)
  have start : error.span.start = place := by rw [same]
  have cut : source.take place.offset = before := by
    obtain ⟨front, split, rfl⟩ := arrives.split
    obtain rfl := List.append_cancel_right (split.symm.trans whole)
    rw [Position.offset_advance, split]
    show List.take (0 + front.length) (front ++ u :: rest) = front
    rw [Nat.zero_add, List.take_left]
  refine ⟨?_, ?_, places.stop.inside, places, ?_⟩
  · rw [message, same]
    exact ScanFault.message_ne known
  · rw [same]
    show place.offset ≤ (place.advance _).offset
    rw [Position.offset_advance]
    exact Nat.le_add_right _ _
  · rw [start, cut]
    exact ⟨_, divides.tokens⟩

/-- Scanning is safe for every source. At every place something is read that takes one unit or more,
or else there is a fault, and in both cases no more units are gone over than are left. So there are
tokens in the end, or else an error that is not about going past the end, whose span lies in the
source at counted places, and all before which can be scanned. -/
theorem scan_safe :
    (∀ (first : CodeUnit) (rest : Text), (∃ kind taken, Scan.front first rest = .ok (kind, taken) ∧
      1 ≤ taken ∧ taken ≤ rest.length + 1) ∨ ∃ stop, Scan.front first rest = .error stop ∧
      stop.read ≤ rest.length + 1) ∧ ∀ source : Text, (∃ tokens, Token.scan source = .ok tokens) ∨
      ∃ error, Token.scan source = .error error ∧ error.Holds source := by
  refine ⟨Scan.front_progress, fun source => ?_⟩
  cases scan : Token.scan source with
  | ok tokens => exact .inl ⟨tokens, rfl⟩
  | error error => exact .inr ⟨error, rfl, ScanError.holds_of_scan scan⟩

end Marginalia
