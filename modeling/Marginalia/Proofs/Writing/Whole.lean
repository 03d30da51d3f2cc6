import Marginalia.Proofs.Writing.Completeness

/-!
# Patterns and types as whole sources

What a parser reads back wherever it stands, it reads back as a whole source. Main statement: a
pattern in normal form and a type in normal form, written on one line, are read as that pattern and
that type, up to spans. The normal form leaves out two sorts of patterns that nothing is read as,
since they are written as others are: a list without elements, which is written as the empty list
is, and a chain of a single operand, which is written as that operand is.
-/

namespace Marginalia

open Marginalia.Parser Marginalia.Grammar

open Piece (joinFirst Writable)

variable {α γ : Type} {parser : Parser α} {pieces : α → List Piece} {seen : α → γ}
  {admits : α → Prop} {follows : List Piece → Prop} {opens : Piece → Bool}

/-- A tree that is read back everywhere is read back as a whole source. -/
theorem Recovers.run_whole
    (recovers : ∀ input, Recovers input parser pieces seen admits follows opens input.nestingLimit)
    {tree : α} (admitted : admits tree) (atEnd : follows [])
    (writable : Writable (joinFirst (pieces tree))) :
    ∃ found, (whole parser).run (Piece.written (joinFirst (pieces tree))) = .ok (.alone found) ∧
      seen found = seen tree := by
  have leads (input : Input) : Leads input (whole parser) (joinFirst (pieces tree)) [] fun found =>
      ∃ value, found = .alone value ∧ seen value = seen tree := by
    have read := (recovers input).anywhere admitted atEnd
    rw [List.append_nil] at read
    exact whole_leads read
  obtain ⟨_, run, found, rfl, same⟩ := Parser.run_written writable leads
  exact ⟨found, run, same⟩

/-- A pattern on one line: its pieces, with single blanks between those that the grammar does not
join. -/
def Pattern.written (pattern : Pattern) : Text := Piece.written (joinFirst pattern.pieces)

/-- A type on one line: its pieces, with single blanks between those that the grammar does not
join. -/
def TypeExpression.written (type : TypeExpression) : Text := Piece.written (joinFirst type.pieces)

/-- A pattern in normal form is read back. -/
theorem Pattern.reread {pattern : Pattern} (normal : pattern.Normal) :
    ∃ found, Pattern.parse pattern.written = .ok (.alone found) ∧
      found.view .placeless = pattern.view .placeless :=
  Recovers.run_whole (fun _ => pattern_recovers) normal
    (by simp [Follows]) normal.opening.phrase.writable.joinFirst

/-- A type in normal form is read back. -/
theorem TypeExpression.reread {type : TypeExpression} (normal : type.Normal) :
    ∃ found, TypeExpression.parse type.written = .ok (.alone found) ∧
      found.view .placeless = type.view .placeless :=
  Recovers.run_whole (fun _ => typeExpression_recovers) normal
    (by simp [Follows]) normal.opening.phrase.writable.joinFirst

/-- A pattern in normal form and a type in normal form, written on one line, are read as that
pattern and that type, up to spans. -/
theorem patterns_types_reread :
    (∀ pattern : Pattern, pattern.Normal → ∃ found, Pattern.parse pattern.written = .ok
      (.alone found) ∧ found.view .placeless = pattern.view .placeless) ∧ ∀ type : TypeExpression,
      type.Normal → ∃ found, TypeExpression.parse type.written = .ok (.alone found) ∧
      found.view .placeless = type.view .placeless :=
  ⟨fun _ => Pattern.reread, fun _ => TypeExpression.reread⟩

namespace Pattern

/-- A form of a pattern at no place in particular. -/
def placed (node : PatternNode Pattern) : Pattern := ⟨⟨.start, .start⟩, node⟩

/-- A chain of a constructor with two arguments and a list, with a name for the whole. -/
def bundle : Pattern :=
  placed (.named (.alone (placed (.cons (.alone (placed (.data ⟨["M"], "P"⟩ [.alone
      (placed (.name "x")), .alone (placed (.data ⟨[], "Q"⟩ []))]))) [.alone (placed (.list [.alone
      (placed (.literal (.integer 31 .decimal))), .alone (placed .anything)]))]))) (.alone "y"))

/-- The chain is in normal form. -/
theorem bundle_normal : bundle.Normal := by
  have lower {n : Text} (fronts : Scan.Fronts .lowerIdentifier n []) :
      IsLexeme .lowerIdentifier n := .of_fronts fronts
  have upper {n : Text} (fronts : Scan.Fronts .upperIdentifier n []) :
      IsLexeme .upperIdentifier n := .of_fronts fronts
  have x : (placed (.name "x")).Normal := .name (lower ⟨_, _, rfl, rfl, rfl⟩) (by decide)
  have nullary : (placed (.data ⟨[], "Q"⟩ [])).Normal :=
    @Normal.data _ _ [] ⟨by simp, upper ⟨_, _, rfl, rfl, rfl⟩⟩ (by simp) (by simp)
  have call := @Normal.data ⟨.start, .start⟩ ⟨["M"], "P"⟩ [placed (.name "x"),
    placed (.data ⟨[], "Q"⟩ [])] ⟨List.forall_mem_singleton.mpr (upper ⟨_, _, rfl, rfl, rfl⟩),
    upper ⟨_, _, rfl, rfl, rfl⟩⟩ (by simpa using ⟨x, nullary⟩) (by simp; decide)
  have number : (placed (.literal (.integer 31 .decimal))).Normal :=
    .literal (show (0 : Int) ≤ 31 by decide) rfl
  have list := @Normal.list ⟨.start, .start⟩ [placed (.literal (.integer 31 .decimal)),
    placed .anything] (by simpa using ⟨number, .anything⟩) (by simp)
  have chain := @Normal.cons ⟨.start, .start⟩ _ [_] (by simpa using ⟨call, list⟩)
    (by simp; decide) (by simp)
  exact .named chain rfl (lower ⟨_, _, rfl, rfl, rfl⟩)

end Pattern

namespace TypeExpression

/-- A form of a type at no place in particular. -/
def placed (node : TypeNode TypeExpression) : TypeExpression := ⟨⟨.start, .start⟩, node⟩

/-- The type of functions from a list to a record that extends another one by a field. -/
def extension : TypeExpression :=
  placed (.function (.alone (placed (.construction ⟨[], "L"⟩ [.alone (placed (.name "a"))])))
      [.alone (placed (.record (some (.alone "r")) [.alone (.plain ("b", placed (.unit [])))]
      [] false))] false)

/-- The type is in normal form. -/
theorem extension_normal : extension.Normal := by
  have lower {n : Text} (fronts : Scan.Fronts .lowerIdentifier n []) :
      IsLexeme .lowerIdentifier n := .of_fronts fronts
  have a : (placed (.name "a")).Normal := .name (lower ⟨_, _, rfl, rfl, rfl⟩)
  have list := @Normal.construction ⟨.start, .start⟩ ⟨[], "L"⟩ [placed (.name "a")]
    ⟨by simp, .of_fronts ⟨_, _, rfl, rfl, rfl⟩⟩ (by simpa using a) (by simp; decide)
  have record := @Normal.record ⟨.start, .start⟩ (some "r") [("b", placed (.unit []))]
    (fun _ same => Option.some.inj same ▸ lower ⟨_, _, rfl, rfl, rfl⟩)
    (List.forall_mem_singleton.mpr (lower ⟨_, _, rfl, rfl, rfl⟩))
    (List.forall_mem_singleton.mpr .unit)
  exact @Normal.function _ _ [_] (by simpa using ⟨list, record⟩) (by simp; decide) (by simp)

end TypeExpression

/-- A pattern and a type are written with blanks between all tokens but around the dot of a name,
and are read back. -/
theorem bundle_and_extension_reread :
    Pattern.bundle.Normal ∧ Pattern.bundle.written = "M.P x Q :: [ 31 , _ ] as y" ∧
    TypeExpression.extension.Normal ∧ TypeExpression.extension.written = "L a -> { r | b : ( ) }" ∧
    (∃ found, Pattern.parse Pattern.bundle.written = .ok (.alone found) ∧
      found.view .placeless = Pattern.bundle.view .placeless) ∧
    ∃ found, TypeExpression.parse TypeExpression.extension.written = .ok (.alone found) ∧
      found.view .placeless = TypeExpression.extension.view .placeless := by
  obtain ⟨patterns, types⟩ := patterns_types_reread
  exact ⟨Pattern.bundle_normal, by decide +kernel,
    TypeExpression.extension_normal, by decide +kernel, patterns _ Pattern.bundle_normal,
    types _ TypeExpression.extension_normal⟩

namespace Pattern

/-- A list without elements. -/
def elementless : Pattern := placed (.list [])

/-- A chain of a single operand. -/
def unlinked : Pattern := placed (.cons (.alone (placed (.name "x"))) [])

end Pattern

/-- A list without elements and a chain of a single operand are read as the empty list and as that
operand. -/
theorem elementless_and_unlinked_not_reread :
    (Pattern.elementless.written = "[ ]" ∧ ∃ found, Pattern.parse "[ ]" = .ok (.alone found) ∧
      found.view .placeless ≠ Pattern.elementless.view .placeless) ∧
      Pattern.unlinked.written = "x" ∧ ∃ found, Pattern.parse "x" = .ok (.alone found) ∧
        found.view .placeless ≠ Pattern.unlinked.view .placeless := by
  obtain ⟨list, readList, sameList⟩ := @Pattern.reread (Pattern.placed (.emptyList [])) .emptyList
  obtain ⟨operand, readOperand, sameOperand⟩ := @Pattern.reread (Pattern.placed (.name "x"))
    (.name (.of_fronts ⟨_, _, rfl, rfl, rfl⟩) (by decide))
  have writtenList : (Pattern.placed (.emptyList [])).written = "[ ]" := by decide +kernel
  have writtenOperand : (Pattern.placed (.name "x")).written = "x" := by decide +kernel
  rw [writtenList] at readList
  rw [writtenOperand] at readOperand
  refine ⟨⟨by decide +kernel, list, readList, ?_⟩, by decide +kernel, operand, readOperand, ?_⟩
  · rw [sameList]
    simp [Pattern.placed, Pattern.elementless, Pattern.view_mk, PatternNode.view]
  · rw [sameOperand]
    simp [Pattern.placed, Pattern.unlinked, Pattern.view_mk, PatternNode.view]

end Marginalia
