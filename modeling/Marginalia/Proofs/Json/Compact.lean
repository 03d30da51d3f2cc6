import Marginalia.Proofs.Json.Reading

/-!
# Insignificant blanks

Blanks between the parts of a JSON text do not matter, and those in quoted texts do. Leaving out the
former makes texts of a value at different indents equal, and texts of different values stay
different.
-/

namespace Marginalia.Json

open Reader (isBlank)

/-- Where a place in a JSON text is. -/
inductive Region where
  /-- Outside of quoted texts. -/
  | outside
  /-- In a quoted text. -/
  | quoted
  /-- In a quoted text, right behind the mark of an escape. -/
  | escaped
deriving DecidableEq, Repr

/-- Where the place behind a unit is. -/
def Region.after : Region → CodeUnit → Region
  | outside, u => if u = quoteMark then quoted else outside
  | quoted, u => if u = quoteMark then outside else if u = escapeMark then escaped else quoted
  | escaped, _ => quoted

/-- A text from a place on, without the blanks that stand outside of quoted texts. -/
def withoutBlanks : Region → Text → Text
  | _, [] => []
  | region, u :: rest =>
    if region = .outside ∧ isBlank u = true then withoutBlanks region rest
    else u :: withoutBlanks (region.after u) rest

/-- The significant units of a JSON text: all but the blanks between its parts. -/
def significant (text : Text) : Text := withoutBlanks .outside text

/-! ## Pieces of texts -/

/-- Of a piece that begins and ends in a region some units are significant, whatever follows. -/
def Leaves (region : Region) (piece kept : Text) : Prop :=
  ∀ rest, withoutBlanks region (piece ++ rest) = kept ++ withoutBlanks region rest

variable {region : Region} {piece kept more moreKept : Text} {u : CodeUnit} {value : Json}
  {indent : Nat}

/-- Nothing leaves nothing. -/
theorem Leaves.nil : Leaves region [] [] := fun _ => rfl

/-- Pieces stand one after the other. -/
theorem Leaves.append (first : Leaves region piece kept) (second : Leaves region more moreKept) :
    Leaves region (piece ++ more) (kept ++ moreKept) := by
  intro rest
  rw [List.append_assoc, first, second, List.append_assoc]

/-- Units that are no blanks and no quotes are significant. -/
theorem leaves_solid (solid : (piece.all fun u => !isBlank u && u != quoteMark) = true) :
    Leaves .outside piece piece := by
  induction piece with
  | nil => exact .nil
  | cons u piece ih =>
    rw [List.all_cons, Bool.and_eq_true, Bool.and_eq_true, Bool.not_eq_true', bne_iff_ne] at solid
    obtain ⟨⟨notBlank, notQuote⟩, others⟩ := solid
    intro rest
    have onward := ih others rest
    rw [List.cons_append, withoutBlanks, if_neg (by simp [notBlank]), Region.after,
      if_neg notQuote, onward]
    rfl

/-- Blanks are not significant. -/
theorem leaves_blanks (areBlanks : ∀ u ∈ piece, isBlank u = true) : Leaves .outside piece [] := by
  induction piece with
  | nil => exact .nil
  | cons u piece ih =>
    obtain ⟨blank, others⟩ := List.forall_mem_cons.mp areBlanks
    intro rest
    rw [List.cons_append, withoutBlanks, if_pos ⟨rfl, blank⟩, ih others]

/-- Units of a quoted text that are no marks are significant. -/
theorem leaves_unmarked (unmarked : ∀ u ∈ piece, u ≠ quoteMark ∧ u ≠ escapeMark) :
    Leaves .quoted piece piece := by
  induction piece with
  | nil => exact .nil
  | cons u piece ih =>
    obtain ⟨⟨notQuote, notEscape⟩, others⟩ := List.forall_mem_cons.mp unmarked
    intro rest
    have onward := ih others rest
    rw [List.cons_append, withoutBlanks, if_neg (by simp), Region.after, if_neg notQuote,
      if_neg notEscape, onward]
    rfl

/-- The mark of an escape and the letter behind it are significant. -/
theorem leaves_escape (letter : CodeUnit) :
    Leaves .quoted [escapeMark, letter] [escapeMark, letter] := fun _ => rfl

/-- The inside of a quoted text is significant. -/
theorem Escaped.leaves {inside units : Text} (escaped : Escaped inside units) :
    Leaves .quoted inside inside := by
  induction escaped with
  | nil => exact .nil
  | @plain u inside units notQuote notEscape _ _ ih =>
    have first : Leaves .quoted [u] [u] := leaves_unmarked (by simp [notQuote, notEscape])
    exact first.append ih
  | short isShort _ ih =>
    rw [(shortEscape_spec isShort).1]
    exact (leaves_escape _).append ih
  | numeric u _ ih =>
    have digits : Leaves .quoted (hexDigits u) (hexDigits u) := by
      refine leaves_unmarked fun digit member => ?_
      have isHexadecimal := List.all_eq_true.mp (hexDigits_spec u).2.1 digit member
      constructor
      · rintro rfl
        revert isHexadecimal
        decide
      · rintro rfl
        revert isHexadecimal
        decide
    exact ((leaves_escape (.ofChar 'u')).append digits).append ih

/-- A quoted text is significant. -/
theorem leaves_quote (units : Text) : Leaves .outside (quote units) (quote units) := by
  intro rest
  have inside := (escaped_escapeUnits units).leaves (quoteMark :: rest)
  have spelled (behind : Text) :
      quote units ++ behind = quoteMark :: (escapeUnits units ++ quoteMark :: behind) := by
    rw [quote, List.append_assoc, List.append_assoc]
    rfl
  have opened : withoutBlanks .outside (quoteMark :: (escapeUnits units ++ quoteMark :: rest)) =
      quoteMark :: withoutBlanks .quoted (escapeUnits units ++ quoteMark :: rest) := rfl
  have closed :
      withoutBlanks .quoted (quoteMark :: rest) = quoteMark :: withoutBlanks .outside rest := rfl
  rw [spelled, spelled, opened, inside, closed]

/-- A line break and an indentation are not significant. -/
theorem leaves_lineBreak (indent depth outer : Nat) :
    Leaves .outside (lineBreak indent depth) (lineBreak 0 outer) :=
  leaves_blanks (Reader.isBlank_lineBreak indent depth)

/-- Only the colon is significant in the mark of a key. -/
theorem leaves_keyMark (indent : Nat) : Leaves .outside (keyMark indent) (keyMark 0) := by
  intro rest
  rw [keyMark]
  by_cases flat : indent = 0
  · rw [if_pos flat]
    rfl
  · rw [if_neg flat]
    rfl

/-! ## Values -/

/-- The text of a value leaves the text without an indent. -/
def Flattens (indent : Nat) (value : Json) : Prop :=
  ∀ depth flatDepth, Leaves .outside (renderAt indent depth value) (renderAt 0 flatDepth value)

/-- Further elements leave their text without an indent, if each of them does. -/
theorem leaves_renderElements {elements : List Json}
    (flattens : ∀ element ∈ elements, Flattens indent element) (depth flatDepth : Nat) :
    Leaves .outside (renderElements indent depth elements)
      (renderElements 0 flatDepth elements) := by
  have comma : Leaves .outside (Text.ofString ",") (Text.ofString ",") := leaves_solid (by decide)
  induction elements with
  | nil => exact .nil
  | cons element others ih =>
    obtain ⟨first, further⟩ := List.forall_mem_cons.mp flattens
    exact ((comma.append (leaves_lineBreak indent depth flatDepth)).append
        (first depth flatDepth)).append (ih further)

/-- Further members leave their text without an indent, if the value of each of them does. -/
theorem leaves_renderMembers {members : List (Text × Json)}
    (flattens : ∀ member ∈ members, Flattens indent member.2) (depth flatDepth : Nat) :
    Leaves .outside (renderMembers indent depth members) (renderMembers 0 flatDepth members) := by
  have comma : Leaves .outside (Text.ofString ",") (Text.ofString ",") := leaves_solid (by decide)
  induction members with
  | nil => exact .nil
  | cons member others ih =>
    obtain ⟨first, further⟩ := List.forall_mem_cons.mp flattens
    have marked := (comma.append (leaves_lineBreak indent depth flatDepth)).append
      (leaves_quote member.1)
    exact ((marked.append (leaves_keyMark indent)).append (first depth flatDepth)).append
      (ih further)

/-- The text of a value at any indent leaves the text without an indent. -/
theorem Exact.flattens (exact : value.Exact) (indent : Nat) : Flattens indent value := by
  induction exact with
  | null => exact fun _ _ => @leaves_solid (Text.ofString "null") (by decide)
  | bool b =>
    cases b with
    | false => exact fun _ _ => @leaves_solid (Text.ofString "false") (by decide)
    | true => exact fun _ _ => @leaves_solid (Text.ofString "true") (by decide)
  | natural n =>
    refine fun _ _ => leaves_solid (List.all_eq_true.mpr fun u member => ?_)
    have isDigit := (Text.digitPart_ofNat n).2 u member
    have notQuote : u ≠ quoteMark := Reader.ne_of_isDigit isDigit (by decide)
    simp [Reader.isBlank_of_isDigit isDigit, notQuote]
  | string s => exact fun _ _ => leaves_quote s
  | @array elements _ ih =>
    intro depth flatDepth
    cases elements with
    | nil => exact @leaves_solid (Text.ofString "[]") (by decide)
    | cons first others =>
      have opening : Leaves .outside (Text.ofString "[") (Text.ofString "[") :=
        leaves_solid (by decide)
      have closing : Leaves .outside (Text.ofString "]") (Text.ofString "]") :=
        leaves_solid (by decide)
      obtain ⟨flattensFirst, flattensOthers⟩ := List.forall_mem_cons.mp ih
      have front := (opening.append (leaves_lineBreak indent (depth + 1) (flatDepth + 1))).append
        (flattensFirst (depth + 1) (flatDepth + 1))
      have back := (leaves_renderElements flattensOthers (depth + 1) (flatDepth + 1)).append
        (leaves_lineBreak indent depth flatDepth)
      simpa only [renderAt, List.append_assoc] using (front.append back).append closing
  | @object members _ ih =>
    intro depth flatDepth
    cases members with
    | nil => exact @leaves_solid (Text.ofString "\x7b\x7d") (by decide)
    | cons first others =>
      have opening : Leaves .outside (Text.ofString "\x7b") (Text.ofString "\x7b") :=
        leaves_solid (by decide)
      have closing : Leaves .outside (Text.ofString "\x7d") (Text.ofString "\x7d") :=
        leaves_solid (by decide)
      obtain ⟨flattensFirst, flattensOthers⟩ := List.forall_mem_cons.mp ih
      have key := (opening.append (leaves_lineBreak indent (depth + 1) (flatDepth + 1))).append
        (leaves_quote first.1)
      have front := (key.append (leaves_keyMark indent)).append
        (flattensFirst (depth + 1) (flatDepth + 1))
      have back := (leaves_renderMembers flattensOthers (depth + 1) (flatDepth + 1)).append
        (leaves_lineBreak indent depth flatDepth)
      simpa only [renderAt, List.append_assoc] using (front.append back).append closing

/-- What is significant in the text of a value, blanks behind it included, is the text without an
indent. -/
theorem significant_render (exact : value.Exact) (indent : Nat) {blanks : Text}
    (areBlanks : ∀ u ∈ blanks, isBlank u = true) :
    significant (value.render indent ++ blanks) = value.render 0 := by
  have all := (exact.flattens indent 0 0).append (leaves_blanks areBlanks)
  have whole := all []
  rwa [List.append_nil, List.append_nil, withoutBlanks, List.append_nil] at whole

/-- Texts of values, at any indents, are different in more than insignificant blanks if the values
are different. -/
theorem eq_of_significant {other : Json} (exact : value.Exact) (otherExact : other.Exact)
    {otherIndent : Nat} {blanks : Text} (areBlanks : ∀ u ∈ blanks, isBlank u = true)
    (same : significant (value.render indent ++ blanks) = significant
      (other.render otherIndent ++ blanks)) : value = other := by
  rw [significant_render exact indent areBlanks,
    significant_render otherExact otherIndent areBlanks] at same
  exact render_inj exact otherExact same

end Marginalia.Json
