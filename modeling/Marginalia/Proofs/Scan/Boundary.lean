import Mathlib.Tactic.ByContra
import Marginalia.Proofs.Scan.Delimiter

/-!
# Where tokens end

Behind a token a reader looks at a few units only, to see whether the token goes on there.
`Boundary` says when another text may follow in place of the one that did: it goes on in the same
way up to a blank or to its end. For every reader, and in the end for the front of any text, the
units that make up the token are taken in the same way whatever follows them in this sense.
-/

namespace Marginalia.Scan

/-! ## What may follow a token -/

/-- The second text goes on as the first one does, up to a blank or to its end. -/
inductive Fades : Text → Text → Prop where
  | stops {text other : Text} (blank : ∀ u ∈ other.head?, isBlank u = true) : Fades text other
  | goesOn {text other : Text} (u : CodeUnit) (further : Fades text other) :
      Fades (u :: text) (u :: other)

/-- A text that fades from another one begins with a blank, or as the other one, or not at all. -/
theorem Fades.head {text other : Text} (fades : Fades text other) {u : CodeUnit}
    (first : u ∈ other.head?) : isBlank u = true ∨ u ∈ text.head? := by
  cases fades with
  | stops blank => exact .inl (blank u first)
  | goesOn v further => exact .inr first

/-- A property that blanks lack stays absent at the front of a text that fades. -/
theorem Fades.lacks {text other : Text} (fades : Fades text other) {property : CodeUnit → Bool}
    (blanks : ∀ u, isBlank u = true → property u = false)
    (lacks : ∀ u ∈ text.head?, property u = false) : ∀ u ∈ other.head?, property u = false := by
  intro u first
  rcases fades.head first with blank | same
  · exact blanks u blank
  · exact lacks u same

/-- Behind a common front, fading is fading of the rest. -/
theorem Fades.append {text other : Text} (fades : Fades text other) (front : Text) :
    Fades (front ++ text) (front ++ other) := by
  induction front with
  | nil => exact fades
  | cons u rest ih => exact .goesOn u ih

/-- Units that are no blanks stand at the front of a text that fades only where they stood
before. -/
theorem Fades.front {text other : Text} (fades : Fades text other) :
    ∀ opening rest : Text, other = opening ++ rest → (∀ u ∈ opening, isBlank u = false) →
      ∃ before, text = opening ++ before := by
  induction fades with
  | stops blank =>
    rintro (_ | ⟨u, opening⟩) rest rfl noBlank
    · exact ⟨_, rfl⟩
    · exact absurd (blank u rfl) (by simp [noBlank u (by simp)])
  | goesOn v further ih =>
    rintro (_ | ⟨u, opening⟩) rest same noBlank
    · exact ⟨_, rfl⟩
    · obtain ⟨rfl, rest⟩ := List.cons.inj same
      obtain ⟨before, rfl⟩ := ih _ _ rest
        (fun w member => noBlank w (List.mem_cons_of_mem _ member))
      exact ⟨before, rfl⟩

/-- What a text that fades opens with, the text it fades from opens with. -/
theorem Fades.opensWith {text other : Text} (fades : Fades text other) {opening : String}
    (noBlank : (Text.ofString opening).any isBlank = false)
    (opens : opensWith opening other = true) : Scan.opensWith opening text = true := by
  obtain ⟨rest, same⟩ := (opensWith_iff _ _).mp opens
  have solid : ∀ u ∈ Text.ofString opening, isBlank u = false :=
    fun u member => Bool.eq_false_iff.mpr (List.any_eq_false.mp noBlank u member)
  obtain ⟨before, rfl⟩ := fades.front _ _ same solid
  exact opensWith_append _ _

/-- One text may stand behind a token in place of another: it goes on in the same way up to a blank
or its end, and does not break up two dashes. -/
structure Boundary (after other : Text) : Prop where
  /-- The other text goes on in the same way up to a blank or its end. -/
  fades : Fades after other
  /-- Two dashes are kept or give way to a blank or the end. -/
  dashes : Scan.opensWith "--" after = true →
    Scan.opensWith "--" other = true ∨ ∀ u ∈ other.head?, isBlank u = true

/-- What a reader takes has a certain shape, and is taken in the same way whatever may stand behind
it. -/
def Takes (read : Text → ρ) (result : Nat → ρ) (Shape : Text → Prop) : Prop :=
  ∀ text taken, read text = result taken →
    ∃ lexeme after, text = lexeme ++ after ∧ taken = lexeme.length ∧ Shape lexeme ∧
      ∀ other, Boundary after other → read (lexeme ++ other) = result taken

/-- A run goes on in the same way whatever may stand behind it. -/
theorem run_fades {property : CodeUnit → Bool} (blanks : ∀ u, isBlank u = true → property u = false)
    (text : Text) :
    ∃ inside after, text = inside ++ after ∧ run property text = inside.length ∧
      (∀ u ∈ inside, property u = true) ∧
      ∀ other, Fades after other → run property (inside ++ other) = inside.length := by
  obtain ⟨inside, after, rfl, count, all, stops⟩ := run_split property text
  exact ⟨inside, after, rfl, count, all, fun other fades =>
      run_append all (fades.lacks blanks stops)⟩

/-- A property that none of the four blanks has. -/
theorem blanks_lack (property : CodeUnit → Bool)
    (four : ([' ', '\t', '\n', '\r'].all fun c => !property (.ofChar c)) = true) (u : CodeUnit)
    (blank : isBlank u = true) : property u = false := by
  simp only [List.all_cons, List.all_nil, Bool.and_true, Bool.and_eq_true,
    Bool.not_eq_true'] at four
  simp only [isBlank, Bool.or_eq_true, beq_iff_eq] at blank
  obtain ⟨space, tab, newline, carriageReturn⟩ := four
  rcases blank with ((rfl | rfl) | rfl) | rfl
  · exact space
  · exact tab
  · exact newline
  · exact carriageReturn

/-- A unit with a property that none of the four blanks has is no blank. -/
theorem notBlank_of (property : CodeUnit → Bool)
    (four : ([' ', '\t', '\n', '\r'].all fun c => !property (.ofChar c)) = true) {u : CodeUnit}
    (holds : property u = true) : isBlank u = false := by
  by_contra blank
  have lacks := blanks_lack property four u (by simpa using blank)
  simp [holds] at lacks

end Marginalia.Scan
