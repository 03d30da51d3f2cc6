import Marginalia.Proofs.Literal.Token
import Marginalia.Proofs.Parts.Law
import Marginalia.Proofs.Scan.Extent
import Marginalia.Proofs.Scan.Partition

/-!
# Words in the source

A token that is a name, an operator or a mark stands in the source as it is spelled, and tokens that
stand directly one behind the other spell together what each of them spells: no blank and no comment
comes in between.
-/

namespace Marginalia

variable {source : Text} {tokens : List Token}

/-! ## Stretches -/

/-- The text over two stretches, one directly behind the other. -/
theorem Text.over_append (source : Text) {start middle stop : Position}
    (first : start.offset ≤ middle.offset) (second : middle.offset ≤ stop.offset) :
    source.over ⟨start, middle⟩ ++ source.over ⟨middle, stop⟩ = source.over ⟨start, stop⟩ :=
  slice_append_slice source first second

/-- Texts that stand directly one behind the other stand together. -/
theorem Verbatim.append {start middle stop : Position} {first second : Text}
    (before : Verbatim source tokens start middle first)
    (behind : Verbatim source tokens middle stop second) :
    Verbatim source tokens start stop (first ++ second) := by
  refine ⟨Nat.le_trans before.le behind.le, ?_,
    List.forall_mem_append.mpr ⟨before.solid, behind.solid⟩, ?_⟩
  · rw [← source.over_append before.le behind.le, before.over_eq, behind.over_eq]
  · intro token member isComment offset from_start to_stop
    rcases Nat.lt_or_ge offset middle.offset with early | late
    · exact before.noComment token member isComment offset from_start early
    · exact behind.noComment token member isComment offset late to_stop

/-! ## Tokens -/

namespace Scan

/-- No mark has a blank in it. -/
theorem notBlank_of_mark {kind : TokenKind} {word : String} (isMark : kind.mark? = some word) :
    ∀ u ∈ Text.ofString word, isBlank u = false := by
  have solid : (Text.ofString word).any isBlank = false := by cases kind <;> cases isMark <;> decide
  exact fun u member => Bool.eq_false_iff.mpr (List.any_eq_false.mp solid u member)

/-- No unit of a name is blank. -/
theorem Divides.notBlank_of_name {position : Position} {text : Text} {found : List Token}
    (divides : Divides position text found) {token : Token} (member : token ∈ found)
    (isName : token.kind = .lowerIdentifier ∨ token.kind = .upperIdentifier) :
    ∀ u ∈ token.lexeme, isBlank u = false := by
  have solidKind : token.kind ≠ .eof ∧ token.kind ≠ .lineComment := by
    rcases isName with kind | kind <;> simp [kind]
  obtain ⟨other, fronts⟩ := divides.fronts token member solidKind.1
  have alone := fronts.before_blank solidKind.2 (show ∀ u ∈ ([] : Text).head?,
    isBlank u = true by simp)
  obtain ⟨u, tail, same, solid, -, -, parts⟩ := Piece.fronts_isName alone isName
  rw [same]
  exact List.forall_mem_cons.mpr
    ⟨solid, fun v member => notBlank_of isNamePart (by decide) (parts v member)⟩

end Scan

/-- A token that is no comment stands in the source as it is spelled, if no unit of it is blank. -/
theorem Input.Scanned.verbatim {input : Input} (scanned : input.Scanned) {token : Token}
    (member : token ∈ input.tokens.toList) (noComment : token.isComment = false)
    (solid : ∀ u ∈ token.lexeme, Scan.isBlank u = false) :
    Verbatim input.source input.tokens.toList token.span.start token.span.stop token.lexeme := by
  refine ⟨?_, (Scan.Divides.stretches scanned [] rfl token member).1, solid, ?_⟩
  · rw [Scan.Divides.stop_eq scanned token member, Position.offset_advance]
    exact Nat.le_add_right _ _
  · obtain ⟨before, after, split⟩ := List.append_of_mem member
    have apart := (Scan.Divides.ordered scanned).pairwise
    rw [split, List.pairwise_append, List.pairwise_cons] at apart
    intro other inTokens isComment offset from_start to_stop inside
    rw [split] at inTokens
    rcases List.mem_append.mp inTokens with early | late
    · have stops := apart.2.2 other early token (.head _)
      omega
    · rcases List.mem_cons.mp late with rfl | later
      · rw [noComment] at isComment
        cases isComment
      · have starts := apart.2.1.1 other later
        omega

/-- The text between two places of the input of a parser. -/
abbrev Input.Verbatim (input : Input) (start stop : Position) (text : Text) : Prop :=
  Marginalia.Verbatim input.source input.tokens.toList start stop text

namespace Input.Scanned

variable {input : Input} (scanned : input.Scanned) {token : Token}
  (member : token ∈ input.tokens.toList)

include scanned member

/-- Over the span of a token stands its lexeme. -/
theorem over_token : input.source.over token.span = token.lexeme :=
  (Scan.Divides.stretches scanned [] rfl token member).1

/-- A name stands in the source. -/
theorem verbatim_of_name {name : Text}
    (isName : token.Is .lowerIdentifier name ∨ token.Is .upperIdentifier name) :
    input.Verbatim token.span.start token.span.stop name := by
  have lexeme : token.lexeme = name := isName.elim And.right And.right
  have kind : token.kind = .lowerIdentifier ∨ token.kind = .upperIdentifier :=
    isName.imp And.left And.left
  have noComment : token.isComment = false := by
    rw [Token.isComment]
    rcases kind with kind | kind <;> rw [kind] <;> rfl
  have stands := scanned.verbatim member noComment
    (Scan.Divides.notBlank_of_name scanned member kind)
  rwa [lexeme] at stands

/-- Punctuation with one spelling stands in the source. -/
theorem verbatim_of_mark {word : String} (isMark : token.kind.mark? = some word) :
    input.Verbatim token.span.start token.span.stop word := by
  have shape := Scan.Divides.shape scanned token member
  have noComment : token.isComment = false := by
    rw [Token.isComment]
    generalize token.kind = kind at isMark
    cases kind <;> cases isMark <;> rfl
  have lexeme := Parser.Shape.lexeme_of_mark? shape isMark
  have stands := scanned.verbatim member noComment (lexeme ▸ Scan.notBlank_of_mark isMark)
  rwa [lexeme] at stands

end Input.Scanned

/-! ## Names with dots -/

/-- Parts with a dot before each but the first one. -/
theorem Text.intercalate_cons (separator first : Text) (rest : List Text) :
    separator.intercalate (first :: rest) = first ++ rest.flatMap (separator ++ ·) := by
  induction rest generalizing first with
  | nil => simp
  | cons second others ih =>
    rw [List.intercalate_cons_cons, ih, List.flatMap_cons, List.append_assoc, List.append_assoc]

/-- A qualified name has the parts that it is made of. -/
theorem QualifiedName.parts_ofParts (first : Text) (rest : List Text) :
    (ofParts first rest).parts = first :: rest := by
  induction rest generalizing first with
  | nil => rfl
  | cons next others ih => exact congrArg (first :: ·) (ih next)

end Marginalia
