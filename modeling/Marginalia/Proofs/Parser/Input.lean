import Marginalia.Parse
import Marginalia.Proofs.Parser.Run
import Marginalia.Proofs.Scan.Division

/-!
# Inputs made of a source

Parsers run on any input. On the inputs that arise, the tokens are those that the source divides
into, and what is known of the tokens of a source holds of the tokens that a parser looks at.
-/

namespace Marginalia

/-- A result that is no error is a value. -/
theorem ok_of_isOk {ε α : Type} {result : Except ε α} (isOk : result.isOk = true) :
    ∃ value, result = .ok value := by
  cases result with
  | error error => cases isOk
  | ok value => exact ⟨value, rfl⟩

/-- A result of which something is seen is a value of which this is seen. -/
theorem ok_of_toOption_map {ε α β : Type} {result : Except ε α} {see : α → β} {seen : β}
    (isSeen : result.toOption.map see = some seen) :
    ∃ value, result = .ok value ∧ see value = seen := by
  cases result with
  | error error => cases isSeen
  | ok value => exact ⟨value, rfl, Option.some.inj isSeen⟩

/-- The tokens are those that the source divides into. -/
def Input.Scanned (input : Input) : Prop := Scan.Divides .start input.source input.tokens.toList

/-- The input of a source is scanned. -/
theorem Input.ofSource?_eq_ok {source : Text} {input : Input} :
    Input.ofSource? source = .ok input ↔ input.source = source ∧
    Token.scan source = .ok input.tokens.toList := by
  rw [ofSource?]
  cases Token.scan source with
  | error error => simp [Except.map]
  | ok tokens =>
    simp only [Except.map, Except.ok.injEq]
    constructor
    · rintro rfl
      exact ⟨rfl, rfl⟩
    · rintro ⟨rfl, rfl⟩
      rfl

/-- The tokens at an index are the comments there and what stands behind them. -/
theorem Input.drop_eq_commentsAt_append (input : Input) (index : Nat) :
    input.tokens.toList.drop index = input.commentsAt index ++ input.tokens.toList.drop
      (index + (input.commentsAt index).length) := by
  rw [commentsAt_eq_takeWhile]
  obtain ⟨rest, split⟩ := List.takeWhile_prefix (l := input.tokens.toList.drop index) (·.isComment)
  have left : (input.tokens.toList.drop index).drop
      ((input.tokens.toList.drop index).takeWhile (·.isComment)).length = rest := by
    have dropped :=
      congrArg (List.drop ((input.tokens.toList.drop index).takeWhile (·.isComment)).length) split
    rw [List.drop_left] at dropped
    exact dropped.symm
  rw [← List.drop_drop, left, split]

/-- What no comment changes is the same before and behind comments. -/
theorem Input.eq_of_comments {α : Type} {input : Input} {f : Nat → α}
    (step : ∀ index, (∀ token, input.tokens[index]? = some token → token.isComment = true) →
      f (index + 1) = f index) {first second : Nat} (le : first ≤ second)
    (comments : ∀ index, first ≤ index → index < second → ∀ token,
      input.tokens[index]? = some token → token.isComment = true) : f second = f first := by
  induction le with
  | refl => rfl
  | @step second le ih =>
    have le : first ≤ second := le
    rw [← ih fun index lower upper => comments index lower (by omega)]
    exact step second (comments second le (Nat.lt_succ_self _))

/-- The comments at an index are comments. -/
theorem Input.isComment_of_mem_commentsAt (input : Input) (index : Nat) :
    ∀ token ∈ input.commentsAt index, token.isComment = true := by
  rw [commentsAt_eq_takeWhile]
  exact List.all_eq_true.mp List.all_takeWhile

namespace Input.Scanned

variable {input : Input}

/-- Tokens that are scanned are those of the source. -/
theorem of_scan {source : Text} (same : input.source = source)
    (scan : Token.scan source = .ok input.tokens.toList) : input.Scanned := by
  subst same
  exact (Scan.scan_eq_ok_iff _ _).mp scan

/-- The token that is looked at is one of the tokens. -/
theorem mem_of_tokenAt? {index : Nat} {token : Token} (found : input.tokenAt? index = some token) :
    token ∈ input.tokens.toList := by
  rw [tokenAt?] at found
  cases inside : input.tokens[index]? with
  | some other =>
    rw [inside] at found
    obtain rfl := Option.some.inj found
    exact Array.mem_toList_iff.mpr (Array.mem_of_getElem? inside)
  | none =>
    rw [inside] at found
    exact Array.mem_toList_iff.mpr (Array.mem_of_back? found)

/-- The token that is looked at has the shape of its kind. -/
theorem shape (scanned : input.Scanned) {index : Nat} {token : Token}
    (found : input.tokenAt? index = some token) : Scan.Shape token.kind token.lexeme :=
  Scan.Divides.shape scanned token (mem_of_tokenAt? found)

/-- Past the last token, the end of the source is looked at. -/
theorem eof_of_size_le (scanned : input.Scanned) {index : Nat} {token : Token}
    (found : input.tokenAt? index = some token) (past : input.tokens.size ≤ index) :
    token.kind = .eof := by
  obtain ⟨inner, stop, same, -⟩ := Scan.Divides.closed scanned
  have last : input.tokens.back? = some ⟨.eof, [], ⟨stop, stop⟩⟩ := by
    rw [← Array.getLast?_toList, same]
    simp
  rw [tokenAt?, Array.getElem?_eq_none past, last] at found
  obtain rfl := Option.some.inj found
  rfl

/-- A token that is not the end of the source is the first of the unread ones. -/
theorem drop_eq_cons (scanned : input.Scanned) {index : Nat} {token : Token}
    (found : input.tokenAt? index = some token) (solid : token.kind ≠ .eof) :
    input.tokens.toList.drop index = token :: input.tokens.toList.drop (index + 1) := by
  have inside : index < input.tokens.size := by
    by_cases past : input.tokens.size ≤ index
    · exact absurd (scanned.eof_of_size_le found past) solid
    · omega
  rw [tokenAt?, Array.getElem?_eq_getElem inside] at found
  obtain rfl := Option.some.inj found
  exact List.drop_eq_getElem_cons (by simpa using inside)

/-- Where the end of the source is looked at, no other token is left. -/
theorem drop_of_eof (scanned : input.Scanned) {index : Nat} {token : Token}
    (found : input.tokenAt? index = some token) (ends : token.kind = .eof) :
    ∀ left ∈ input.tokens.toList.drop index, left.kind = .eof := by
  obtain ⟨inner, stop, same, solid⟩ := Scan.Divides.closed scanned
  have notInner : inner.length ≤ index := by
    by_cases inside : index < inner.length
    · have size : index < input.tokens.size := by
        rw [← Array.length_toList, same, List.length_append]
        omega
      rw [tokenAt?, Array.getElem?_eq_getElem size] at found
      obtain rfl := Option.some.inj found
      have sameToken : input.tokens[index] = inner[index] := by
        rw [← Array.getElem_toList size]
        simp only [same]
        exact List.getElem_append_left inside
      rw [sameToken] at ends
      exact absurd ends (solid _ (List.getElem_mem inside))
    · omega
  intro left member
  rw [same, List.drop_append, List.drop_eq_nil_of_le notInner, List.nil_append] at member
  obtain rfl := List.mem_singleton.mp (List.mem_of_mem_drop member)
  rfl

end Input.Scanned

end Marginalia
