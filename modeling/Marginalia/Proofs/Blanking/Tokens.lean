import Marginalia.Proofs.Parser.Place

/-!
# Blanks in place of comments

When blanks take the place of the comments of a source, with line breaks left where they are, the
source divides into the same tokens at the same places, less the comments.
-/

namespace Marginalia

/-- The token is written over the code unit at an offset. -/
def Token.covers (token : Token) (offset : Nat) : Bool :=
  token.span.start.offset ≤ offset && offset < token.span.stop.offset

/-- What takes the place of a code unit of a comment: a line break in a block comment stays, all
else is a space. -/
def Token.blankUnit (comment : Token) (u : CodeUnit) : CodeUnit :=
  if comment.kind = .blockComment ∧ u = Text.newline then u else .ofChar ' '

/-- What takes the place of the code unit at an offset: in a comment a blank, and elsewhere the unit
itself. -/
def blankUnit (tokens : List Token) (offset : Nat) (u : CodeUnit) : CodeUnit :=
  match tokens.find? fun token => token.isComment && token.covers offset with
  | some comment => comment.blankUnit u
  | none => u

/-- The source with blanks in place of the comments among its tokens. -/
def Text.blank (source : Text) (tokens : List Token) : Text := source.mapIdx (blankUnit tokens)

/-- The tokens that are no comments. -/
def solidTokens (tokens : List Token) : List Token := tokens.filter fun token => !token.isComment

/-- A comment is left out. -/
theorem solidTokens_comment {token : Token} (comment : token.isComment = true)
    (tokens : List Token) : solidTokens (token :: tokens) = solidTokens tokens := by
  simp [solidTokens, comment]

/-- A token that is no comment stays. -/
theorem solidTokens_solid {token : Token} (solid : token.isComment = false) (tokens : List Token) :
    solidTokens (token :: tokens) = token :: solidTokens tokens := by
  simp [solidTokens, solid]

/-! ## Blanks in a part of a source -/

/-- The text at an offset of the source with blanks in place of the comments. -/
def blankFrom (tokens : List Token) (offset : Nat) (text : Text) : Text :=
  text.mapIdx fun index => blankUnit tokens (offset + index)

/-- A part of the source is blanked after what stands before it. -/
theorem blankFrom_append (tokens : List Token) (offset : Nat) (first second : Text) :
    blankFrom tokens offset (first ++ second) =
      blankFrom tokens offset first ++ blankFrom tokens (offset + first.length) second := by
  simp only [blankFrom, List.mapIdx_append, Nat.add_assoc, Nat.add_comm first.length]

/-- A part of the source is changed unit by unit, if its units are. -/
theorem blankFrom_eq_map {tokens : List Token} {offset : Nat} {text : Text}
    {f : CodeUnit → CodeUnit}
    (same : ∀ index < text.length, ∀ u, blankUnit tokens (offset + index) u = f u) :
    blankFrom tokens offset text = text.map f := by
  refine List.ext_getElem (by simp [blankFrom]) fun index inside _ => ?_
  simp only [blankFrom, List.length_mapIdx] at inside
  simp [blankFrom, same index inside]

/-- Before all tokens a unit stays. -/
theorem blankUnit_before {position : Position} {tokens : List Token}
    (ordered : Ordered position tokens) {offset : Nat} (before : offset < position.offset)
    (u : CodeUnit) : blankUnit tokens offset u = u := by
  have none : (tokens.find? fun token => token.isComment && token.covers offset) = none := by
    refine List.find?_eq_none.mpr fun token member => ?_
    have start := ordered.start_le token member
    simp only [Token.covers, Bool.and_eq_true, decide_eq_true_eq, not_and]
    omega
  rw [blankUnit, none]

/-- A token that ends before an offset does not matter there. -/
theorem blankUnit_after {token : Token} {offset : Nat} (after : token.span.stop.offset ≤ offset)
    (tokens : List Token) (u : CodeUnit) :
    blankUnit (token :: tokens) offset u = blankUnit tokens offset u := by
  have apart : (token.isComment && token.covers offset) = false := by
    simp only [Token.covers, Bool.and_eq_false_iff, decide_eq_false_iff_not]
    omega
  simp only [blankUnit, List.find?_cons, apart]

/-- A unit inside the first token is blanked if the token is a comment. -/
theorem blankUnit_inside {token : Token} {tokens : List Token}
    (ordered : Ordered token.span.stop tokens) {offset : Nat}
    (start : token.span.start.offset ≤ offset)
    (stop : offset < token.span.stop.offset) (u : CodeUnit) :
    blankUnit (token :: tokens) offset u = if token.isComment then token.blankUnit u else u := by
  have covered : token.covers offset = true := by simp [Token.covers, start, stop]
  cases comment : token.isComment with
  | true => simp [blankUnit, comment, covered]
  | false =>
    have further := blankUnit_before ordered stop u
    simp only [blankUnit, List.find?_cons, comment, Bool.false_and] at further ⊢
    simpa using further

/-- What takes the place of a token: blanks if it is a comment, and otherwise the token itself. -/
def Token.blanked (token : Token) : Text :=
  if token.isComment then token.lexeme.map token.blankUnit else token.lexeme

/-- A token and what follows it are blanked one after the other. -/
theorem blankFrom_token (token : Token) {tokens : List Token}
    (ordered : Ordered token.span.stop tokens)
    (length : token.span.stop.offset = token.span.start.offset + token.lexeme.length)
    (rest : Text) :
    blankFrom (token :: tokens) token.span.start.offset (token.lexeme ++ rest) = token.blanked ++
      blankFrom tokens token.span.stop.offset rest := by
  have inside :
      blankFrom (token :: tokens) token.span.start.offset token.lexeme = token.blanked := by
    have units : blankFrom (token :: tokens) token.span.start.offset token.lexeme =
        token.lexeme.map fun u => if token.isComment then token.blankUnit u else u :=
      blankFrom_eq_map fun index lt =>
        blankUnit_inside ordered (Nat.le_add_right _ index) (by omega)
    rw [units, Token.blanked]
    split <;> simp
  have outside : blankFrom (token :: tokens) token.span.stop.offset rest =
        blankFrom tokens token.span.stop.offset rest := by
    unfold blankFrom
    congr 1
    funext index u
    exact blankUnit_after (Nat.le_add_right _ _) tokens u
  rw [blankFrom_append, inside, ← length, outside]

/-- A unit before all tokens and what follows it are blanked one after the other. -/
theorem blankFrom_cons {position : Position} {tokens : List Token} {u : CodeUnit}
    (ordered : Ordered (position.step u) tokens) (rest : Text) :
    blankFrom tokens position.offset (u :: rest) = u :: blankFrom tokens
      (position.step u).offset rest := by
  have next := position.offset_step u
  have split := blankFrom_append tokens position.offset [u] rest
  have stays := blankUnit_before ordered (show position.offset < _ by omega) u
  rw [next]
  simpa [blankFrom, stays] using split

/-! ## Blanks instead of a comment -/

/-- Everything that takes the place of a comment is blank. -/
theorem Token.isBlank_blankUnit (comment : Token) (u : CodeUnit) :
    Scan.isBlank (comment.blankUnit u) = true := by
  unfold blankUnit
  split
  · rename_i kept
    rw [kept.2]
    decide
  · decide

/-- A line comment goes up to the end of the line. -/
theorem Scan.run_of_line {u : CodeUnit} {tail rest : Text}
    (read : front u (tail ++ rest) = .ok (.lineComment, tail.length + 1)) :
    (∀ v ∈ u :: tail, (v != Text.newline && v != Text.carriageReturn) = true) ∧
      ∀ v ∈ rest.head?, (v != Text.newline && v != Text.carriageReturn) = false := by
  obtain ⟨tail', after, same, length, token⟩ := front_takes read
  obtain ⟨rfl, rfl⟩ := List.append_inj same (by omega)
  obtain ⟨body, lexeme⟩ := token.shape
  have opens : opensWith "--" (u :: (tail ++ rest)) = true := by
    rw [← List.cons_append, lexeme, List.append_assoc]
    exact opensWith_append _ _
  rw [front, if_pos opens, lineComment] at read
  obtain ⟨inside, behind, split, count, all, stops⟩ :=
    run_split (fun u => u != Text.newline && u != Text.carriageReturn) (u :: (tail ++ rest))
  rw [count] at read
  have taken : inside.length = (u :: tail).length := (Prod.mk.inj (Except.ok.inj read)).2
  obtain ⟨rfl, rfl⟩ := List.append_inj
    (show (u :: tail) ++ rest = inside ++ behind from split) taken.symm
  exact ⟨all, stops⟩

/-- Behind a line comment the line ends. -/
theorem Scan.endsLine_of_line {u : CodeUnit} {tail rest : Text}
    (read : front u (tail ++ rest) = .ok (.lineComment, tail.length + 1)) :
    ∀ v ∈ rest.head?, isLineEnd v = true := by
  intro v first
  have stop := (run_of_line read).2 v first
  simp only [Bool.and_eq_false_iff, bne_eq_false_iff_eq] at stop
  simpa [isLineEnd] using stop

/-- A line comment has no line break in it. -/
theorem Scan.newline_not_mem_line {u : CodeUnit} {tail rest : Text}
    (read : front u (tail ++ rest) = .ok (.lineComment, tail.length + 1)) :
    Text.newline ∉ u :: tail := by
  intro member
  have inLine := (run_of_line read).1 _ member
  simp at inLine

/-- Advancing looks at line breaks only. -/
theorem Position.advance_map {text : Text} {f : CodeUnit → CodeUnit}
    (breaks : ∀ u ∈ text, f u = Text.newline ↔ u = Text.newline) (position : Position) :
    position.advance (text.map f) = position.advance text := by
  induction text generalizing position with
  | nil => rfl
  | cons u rest ih =>
    have first : position.step (f u) = position.step u := by
      unfold step
      simp only [breaks u (.head _)]
    have further := ih (fun v member => breaks v (.tail _ member)) (position.step u)
    simp only [advance, List.map_cons, List.foldl_cons, first] at further ⊢
    exact further

/-- Blanks stand before the tokens of what follows them. -/
theorem Scan.Divides.blanks {blanks rest : Text} {tokens : List Token} {position : Position}
    (areBlank : ∀ u ∈ blanks, isBlank u = true)
    (divides : Divides (position.advance blanks) rest tokens) :
    Divides position (blanks ++ rest) tokens := by
  induction blanks generalizing position with
  | nil => exact divides
  | cons u further ih =>
    exact .blank (areBlank u (.head _)) (ih (fun v member => areBlank v (.tail _ member)) divides)

/-- What takes the place of a token has its line breaks where the token has them. -/
theorem Token.newline_blankUnit {token : Token} (comment : token.isComment = true)
    (line : token.kind = .lineComment → Text.newline ∉ token.lexeme) :
    ∀ u ∈ token.lexeme, token.blankUnit u = Text.newline ↔ u = Text.newline := by
  intro u member
  have spaceNot : CodeUnit.ofChar ' ' ≠ Text.newline := by decide
  unfold blankUnit
  by_cases block : token.kind = .blockComment
  · by_cases isBreak : u = Text.newline
    · simp [block, isBreak]
    · simp [isBreak, spaceNot]
  · have isLine : token.kind = .lineComment := by
      cases kind : token.kind <;> simp_all [Token.isComment, TokenKind.isComment]
    have notBreak : u ≠ Text.newline := fun same => line isLine (same ▸ member)
    simp [block, notBreak, spaceNot]

/-! ## The tokens of a blanked source -/

namespace Scan

/-- A text with blanks in place of some of its parts: it may stand behind a token where the text
did, divides into the given tokens, and breaks lines where the text does. -/
structure Blanked (position : Position) (text blanked : Text) (tokens : List Token) : Prop where
  /-- The blanked text may stand behind a token in place of the text. -/
  boundary : Boundary text blanked
  /-- The blanked text divides into the tokens. -/
  divides : Divides position blanked tokens
  /-- Line breaks stand where they stood. -/
  breaks : blanked.map (· == Text.newline) = text.map (· == Text.newline)

/-- A text that begins with a blank may stand behind every token. -/
theorem Boundary.of_blank {after other : Text} (blank : ∀ u ∈ other.head?, isBlank u = true) :
    Boundary after other :=
  ⟨.stops blank, fun _ => .inr blank⟩

/-- Blanks in place of a comment leave the tokens behind it. -/
theorem Blanked.comment {token : Token} {rest blanked : Text} {tokens : List Token}
    (comment : token.isComment = true)
    (line : token.kind = .lineComment → Text.newline ∉ token.lexeme) (some : token.lexeme ≠ [])
    (stop : token.span.stop = token.span.start.advance token.lexeme)
    (inner : Blanked token.span.stop rest blanked tokens) :
    Blanked token.span.start (token.lexeme ++ rest)
      (token.lexeme.map token.blankUnit ++ blanked) tokens := by
  have breaks := token.newline_blankUnit comment line
  have areBlank : ∀ u ∈ token.lexeme.map token.blankUnit, isBlank u = true := by
    simp [Token.isBlank_blankUnit]
  refine ⟨.of_blank ?_, .blanks areBlank ?_, ?_⟩
  · cases spelled : token.lexeme with
    | nil => exact absurd spelled some
    | cons u tail => simp [Token.isBlank_blankUnit]
  · rw [Position.advance_map breaks, ← stop]
    exact inner.divides
  · rw [List.map_append, List.map_append, inner.breaks, List.map_map]
    congr 1
    refine List.map_congr_left fun u member => ?_
    rw [Function.comp_apply, Bool.eq_iff_iff, beq_iff_eq, beq_iff_eq]
    exact breaks u member

/-- A token that is no comment stays before what is blanked. -/
theorem Blanked.solid {position : Position} {u : CodeUnit} {tail rest blanked : Text}
    {kind : TokenKind} {tokens : List Token} (solid : isBlank u = false)
    (read : front u (tail ++ rest) = .ok (kind, tail.length + 1))
    (notComment : kind.isComment = false)
    (inner : Blanked (position.advance (u :: tail)) rest blanked tokens) :
    Blanked position (u :: (tail ++ rest)) (u :: (tail ++ blanked))
      (⟨kind, u :: tail, ⟨position, position.advance (u :: tail)⟩⟩ :: tokens) := by
  obtain ⟨tail', after, same, length, token⟩ := front_takes read
  obtain ⟨rfl, rfl⟩ := List.append_inj same (by omega)
  have notLine : kind ≠ .lineComment := by
    rintro rfl
    cases notComment
  refine ⟨⟨inner.boundary.fades.append (u :: tail), fun opens => ?_⟩,
    .token solid ?_ inner.divides, ?_⟩
  · -- Two dashes at the front would be a comment.
    rw [front, if_pos opens] at read
    exact absurd (Prod.mk.inj (Except.ok.inj read)).1.symm notLine
  · exact token.stays blanked inner.boundary fun isLine => absurd isLine notLine
  · rw [← List.cons_append, ← List.cons_append, List.map_append, List.map_append, inner.breaks]

/-- A text with blanks in place of its comments divides into its tokens less the comments. -/
theorem Divides.blanked {position : Position} {text : Text} {found : List Token}
    (divides : Divides position text found) :
    Blanked position text (blankFrom found position.offset text) (solidTokens found) := by
  induction divides with
  | done position => exact ⟨.of_blank (by simp [blankFrom]), .done position, rfl⟩
  | @blank position u rest tokens blank further ih =>
    rw [blankFrom_cons further.ordered]
    refine ⟨.of_blank (by simpa using blank), .blank blank ih.divides, ?_⟩
    rw [List.map_cons, List.map_cons, ih.breaks]
  | @token position u tail rest kind tokens solid read further ih =>
    let token : Token := ⟨kind, u :: tail, ⟨position, position.advance (u :: tail)⟩⟩
    have parts : blankFrom (token :: tokens) position.offset (u :: (tail ++ rest)) =
        token.blanked ++ blankFrom tokens (position.advance (u :: tail)).offset rest :=
      blankFrom_token token further.ordered (position.offset_advance (u :: tail)) rest
    rw [parts, Token.blanked]
    cases comment : kind.isComment with
    | true =>
      have isComment : token.isComment = true := comment
      rw [if_pos isComment, solidTokens_comment isComment]
      refine Blanked.comment isComment (fun isLine => ?_) (List.cons_ne_nil u tail) rfl ih
      obtain rfl : kind = .lineComment := isLine
      exact newline_not_mem_line read
    | false =>
      have notComment : token.isComment = false := comment
      rw [if_neg (by simp [notComment]), solidTokens_solid notComment]
      exact Blanked.solid solid read comment ih

end Scan

/-- A source with blanks in place of its comments has the tokens of the source less the comments,
and its line breaks. -/
theorem blanked_of_scan {source : Text} {tokens : List Token}
    (scan : Token.scan source = .ok tokens) :
    Scan.Blanked .start source (source.blank tokens) (solidTokens tokens) := by
  have blanked := ((Scan.scan_eq_ok_iff source tokens).mp scan).blanked
  have whole : blankFrom tokens Position.start.offset source = source.blank tokens := by
    simp [blankFrom, Text.blank, Position.start]
  rwa [whole] at blanked

end Marginalia
