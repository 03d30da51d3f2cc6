import Marginalia.Token.Scan

/-!
# Closing marks

A reader computes how many units a token takes from the text that is left. The readers of block
comments, shader blocks and strings look for a closing mark and at nothing behind it: `Delimits`
says that what such a reader takes is a body and the mark, whatever text follows.
-/

namespace Marginalia.Scan

/-- A text opens with the units of a string exactly when they stand at its front. -/
theorem opensWith_iff (opening : String) (text : Text) :
    opensWith opening text = true ↔ ∃ rest, text = Text.ofString opening ++ rest := by
  rw [opensWith, List.isPrefixOf_iff_prefix]
  constructor
  · rintro ⟨rest, same⟩
    exact ⟨rest, same.symm⟩
  · rintro ⟨rest, same⟩
    exact ⟨rest, same.symm⟩

/-- What stands at the front of a text opens it. -/
theorem opensWith_append (opening : String) (rest : Text) :
    opensWith opening (Text.ofString opening ++ rest) = true :=
  (opensWith_iff opening _).mpr ⟨rest, rfl⟩

/-- A run ends where a unit without the property follows, or nothing. -/
theorem run_append {property : CodeUnit → Bool} {inside tail : Text}
    (all : ∀ u ∈ inside, property u = true) (stops : ∀ u ∈ tail.head?, property u = false) :
    run property (inside ++ tail) = inside.length := by
  have none : tail.takeWhile property = [] := by
    cases tail with
    | nil => rfl
    | cons u rest => simp [stops u (by simp)]
  rw [run, List.takeWhile_append_of_pos all, none, List.append_nil]

/-- A text is its run and what follows it. -/
theorem run_split (property : CodeUnit → Bool) (text : Text) :
    ∃ inside tail, text = inside ++ tail ∧ run property text = inside.length ∧
      (∀ u ∈ inside, property u = true) ∧ ∀ u ∈ tail.head?, property u = false := by
  refine ⟨text.takeWhile property, text.dropWhile property, List.takeWhile_append_dropWhile.symm,
    rfl, List.all_eq_true.mp List.all_takeWhile, ?_⟩
  intro u first
  have stopped := List.head?_dropWhile_not property text
  rw [Option.mem_def.mp first] at stopped
  simpa using stopped

/-- A first unit with the property is in the run. -/
theorem run_cons {property : CodeUnit → Bool} {u : CodeUnit} (holds : property u = true)
    (rest : Text) : run property (u :: rest) = run property rest + 1 := by
  simp [run, holds]

/-! ## Readers that look for a closing mark -/

/-- When the reader takes a number of units, they are a body and the closing mark, and it takes as
many whatever follows the mark. -/
def Delimits (read : Text → ρ) (result : Nat → ρ) (mark : Text) : Prop :=
  ∀ text taken, read text = result taken →
    ∃ body rest, text = body ++ (mark ++ rest) ∧ taken = body.length + mark.length ∧
      ∀ other, read (body ++ (mark ++ other)) = result taken

/-- The end of a block comment is a closing brace after a dash. -/
theorem blockCommentEnd_delimits (depth : Nat) :
    Delimits (blockCommentEnd depth) some (Text.ofString "-\x7d") := by
  intro text
  fun_induction blockCommentEnd depth text with
  | case1 => simp
  | case2 => simp
  | case3 depth u v rest opens ih =>
    intro taken ended
    obtain ⟨inner, innerEnd, rfl⟩ := Option.map_eq_some_iff.mp ended
    obtain ⟨body, after, rfl, rfl, always⟩ := ih inner innerEnd
    refine ⟨u :: v :: body, after, by simp, by simp only [List.length_cons]; omega, fun other => ?_⟩
    simp [blockCommentEnd, opens, always other]
  | case4 u v rest notOpen closes =>
    intro taken ended
    obtain rfl := Option.some.inj ended
    obtain ⟨rfl, rfl⟩ := closes
    exact ⟨[], rest, rfl, rfl, fun other => rfl⟩
  | case5 u v rest notOpen closes outer ih =>
    intro taken ended
    obtain ⟨inner, innerEnd, rfl⟩ := Option.map_eq_some_iff.mp ended
    obtain ⟨body, after, rfl, rfl, always⟩ := ih inner innerEnd
    refine ⟨u :: v :: body, after, by simp, by simp only [List.length_cons]; omega, fun other => ?_⟩
    simp only [List.cons_append, blockCommentEnd]
    rw [if_neg notOpen, if_pos closes, always other]
    rfl
  | case6 depth u v rest notOpen notClose ih =>
    intro taken ended
    obtain ⟨inner, innerEnd, rfl⟩ := Option.map_eq_some_iff.mp ended
    obtain ⟨body, after, same, rfl, always⟩ := ih inner innerEnd
    refine ⟨u :: body, after, by simp [same], by simp only [List.length_cons]; omega,
      fun other => ?_⟩
    -- the second unit is the same in the other text, since it belongs to the body or to the mark
    obtain ⟨front, again⟩ : ∃ front, body ++ (Text.ofString "-\x7d" ++ other) = v :: front := by
      cases body with
      | nil =>
        have first : v = .ofChar '-' := (List.cons.inj same).1
        exact ⟨.ofChar '}' :: other, by rw [first]; rfl⟩
      | cons w body' => exact ⟨_, by rw [(List.cons.inj same).1]; rfl⟩
    have innerAlways := always other
    rw [again] at innerAlways
    rw [List.cons_append, again]
    simp only [blockCommentEnd]
    rw [if_neg notOpen, if_neg notClose, innerAlways]
    rfl

/-- The end of a shader block is its closing spelling. -/
theorem shaderEnd_delimits : Delimits shaderEnd some (Text.ofString shaderClosing) := by
  intro text
  fun_induction shaderEnd text with
  | case1 => simp
  | case2 u rest closes =>
    intro taken ended
    obtain rfl := Option.some.inj ended
    obtain ⟨after, same⟩ := (opensWith_iff _ _).mp closes
    exact ⟨[], after, same, rfl, fun other => rfl⟩
  | case3 u rest stays ih =>
    intro taken ended
    obtain ⟨inner, innerEnd, rfl⟩ := Option.map_eq_some_iff.mp ended
    obtain ⟨body, after, same, rfl, always⟩ := ih inner innerEnd
    refine ⟨u :: body, after, by simp [same], by simp only [List.length_cons]; omega,
      fun other => ?_⟩
    -- whether the mark stands at a place is told by two units, which belong to the body and to the
    -- mark
    have staysOpen : ¬ opensWith shaderClosing
          (u :: (body ++ (Text.ofString shaderClosing ++ other))) = true := by
      rw [same] at stays
      cases body with
      | nil => exact stays
      | cons w body' => exact stays
    rw [List.cons_append, shaderEnd, if_neg staysOpen, always other]
    rfl

/-- Units counted in front of a part add to those the part takes. -/
theorem after_eq_ok {before taken : Nat} {reading : Reading Nat} :
    reading.after before = .ok taken ↔ ∃ inner, reading = .ok inner ∧ taken = before + inner := by
  cases reading with
  | error stop => simp [Reading.after]
  | ok inner => simp [Reading.after, eq_comm]

/-- An escape is told by its own units. -/
theorem escape_delimits : Delimits escape .ok [] := by
  intro text taken read
  by_cases braced : opensWith "u\x7b" text = true
  · obtain ⟨after, rfl⟩ := (opensWith_iff _ _).mp braced
    obtain ⟨digits, tail, rfl, count, all, -⟩ := run_split CodeUnit.isHexDigit after
    have dropped : ∀ other : Text, (Text.ofString "u\x7b" ++ other).drop 2 = other := fun _ => rfl
    have behind : ∀ other : Text,
          (Text.ofString "u\x7b" ++ (digits ++ other)).drop (2 + digits.length) = other := by
      intro other
      rw [← List.drop_drop, dropped, List.drop_left]
    simp only [escape, braced, ↓reduceIte, dropped, count, behind] at read
    split at read
    · rename_i closes
      obtain rfl := Except.ok.inj read
      obtain ⟨rest, rfl⟩ := List.head?_eq_some_iff.mp closes
      refine ⟨Text.ofString "u\x7b" ++ (digits ++ [.ofChar '}']), rest, by simp, by simp; rfl,
        fun other => ?_⟩
      have again :
          run CodeUnit.isHexDigit (digits ++ (CodeUnit.ofChar '}' :: other)) = digits.length :=
        run_append all (by simp; decide)
      simp only [List.append_assoc, List.nil_append, List.cons_append]
      simp [escape, opensWith_append, dropped, again, behind]
    · cases read
  · cases text with
    | nil => simp [escape, braced] at read
    | cons u rest =>
      rw [escape, if_neg braced] at read
      split at read
      · rename_i escapable
        obtain rfl := Except.ok.inj read
        refine ⟨[u], rest, rfl, rfl, fun other => ?_⟩
        have unbraced : ¬ opensWith "u\x7b" (u :: other) = true := by
          intro opens
          obtain ⟨tail, same⟩ := (opensWith_iff _ _).mp opens
          obtain rfl : u = .ofChar 'u' := (List.cons.inj same).1
          exact absurd escapable (by decide)
        simp [escape, unbraced, escapable]
      · cases read

/-- The end of a string on one line is a quotation mark. -/
theorem lineStringEnd_delimits : Delimits lineStringEnd .ok (Text.ofString "\"") := by
  intro text
  induction text using lineStringEnd.induct with
  | case1 => simp [lineStringEnd]
  | case2 rest =>
    intro taken ended
    rw [lineStringEnd, if_pos rfl] at ended
    obtain rfl := Except.ok.inj ended
    refine ⟨[], rest, rfl, rfl, fun other => ?_⟩
    change lineStringEnd (.ofChar '"' :: other) = .ok 1
    rw [lineStringEnd, if_pos rfl]
  | case3 rest notQuote =>
    intro taken ended
    rw [lineStringEnd, if_neg notQuote, if_pos rfl] at ended
    cases ended
  | case4 rest stop fault notQuote notNewline =>
    intro taken ended
    rw [lineStringEnd, if_neg notQuote, if_neg notNewline, if_pos rfl, fault] at ended
    cases ended
  | case5 rest escaped read notQuote notNewline ih =>
    intro taken ended
    rw [lineStringEnd, if_neg notQuote, if_neg notNewline, if_pos rfl, read] at ended
    obtain ⟨inner, innerEnd, rfl⟩ := after_eq_ok.mp ended
    obtain ⟨front, tail, rfl, rfl, alwaysEscape⟩ := escape_delimits _ _ read
    simp only [List.nil_append, List.length_nil, Nat.add_zero, List.drop_left] at *
    obtain ⟨body, after, rfl, rfl, always⟩ := ih inner innerEnd
    refine ⟨.ofChar '\\' :: (front ++ body), after, by simp, by simp; omega, fun other => ?_⟩
    rw [List.cons_append, lineStringEnd, if_neg notQuote, if_neg notNewline, if_pos rfl,
      List.append_assoc, alwaysEscape]
    simp only [List.drop_left]
    rw [always other]
    rfl
  | case6 u rest notQuote notNewline notEscape ih =>
    intro taken ended
    rw [lineStringEnd, if_neg notQuote, if_neg notNewline, if_neg notEscape] at ended
    obtain ⟨inner, innerEnd, rfl⟩ := after_eq_ok.mp ended
    obtain ⟨body, after, rfl, rfl, always⟩ := ih inner innerEnd
    refine ⟨u :: body, after, rfl, by simp only [List.length_cons]; omega, fun other => ?_⟩
    rw [List.cons_append, lineStringEnd, if_neg notQuote, if_neg notNewline,
      if_neg notEscape, always other]
    rfl

/-- The end of a triple-quoted string is three quotation marks. -/
theorem blockStringEnd_delimits : Delimits blockStringEnd .ok (Text.ofString tripleQuote) := by
  intro text
  induction text using blockStringEnd.induct with
  | case1 => simp [blockStringEnd]
  | case2 u rest closes =>
    intro taken ended
    rw [blockStringEnd, if_pos closes] at ended
    obtain rfl := Except.ok.inj ended
    obtain ⟨after, same⟩ := (opensWith_iff _ _).mp closes
    refine ⟨[], after, same, rfl, fun other => ?_⟩
    change blockStringEnd (.ofChar '"' :: .ofChar '"' :: .ofChar '"' :: other) = .ok 3
    rw [blockStringEnd]
    exact if_pos (opensWith_append tripleQuote other)
  | case3 rest stop fault stays =>
    intro taken ended
    rw [blockStringEnd, if_neg stays, if_pos rfl, fault] at ended
    cases ended
  | case4 rest escaped read stays ih =>
    intro taken ended
    rw [blockStringEnd, if_neg stays, if_pos rfl, read] at ended
    obtain ⟨inner, innerEnd, rfl⟩ := after_eq_ok.mp ended
    obtain ⟨front, tail, rfl, rfl, alwaysEscape⟩ := escape_delimits _ _ read
    simp only [List.nil_append, List.length_nil, Nat.add_zero, List.drop_left] at *
    obtain ⟨body, after, rfl, rfl, always⟩ := ih inner innerEnd
    refine ⟨.ofChar '\\' :: (front ++ body), after, by simp, by simp; omega, fun other => ?_⟩
    have staysOpen : ¬ opensWith tripleQuote
        (.ofChar '\\' :: (front ++ (body ++ (Text.ofString tripleQuote ++ other)))) = true := by
      intro opens
      obtain ⟨_, same⟩ := (opensWith_iff _ _).mp opens
      exact absurd (List.cons.inj same).1 (by decide)
    rw [List.cons_append, List.append_assoc, blockStringEnd, if_neg staysOpen,
      if_pos rfl, alwaysEscape]
    simp only [List.drop_left]
    rw [always other]
    rfl
  | case5 u rest stays notEscape ih =>
    intro taken ended
    rw [blockStringEnd, if_neg stays, if_neg notEscape] at ended
    obtain ⟨inner, innerEnd, rfl⟩ := after_eq_ok.mp ended
    obtain ⟨body, after, rfl, rfl, always⟩ := ih inner innerEnd
    refine ⟨u :: body, after, rfl, by simp only [List.length_cons]; omega, fun other => ?_⟩
    -- whether the mark stands at a place is told by three units, which belong to the body and to
    -- the mark
    have staysOpen :
        ¬ opensWith tripleQuote (u :: (body ++ (Text.ofString tripleQuote ++ other))) = true := by
      match body with
      | [] => exact stays
      | [_] => exact stays
      | _ :: _ :: _ => exact stays
    rw [List.cons_append, blockStringEnd, if_neg staysOpen, if_neg notEscape, always other]
    rfl

end Marginalia.Scan
