import Marginalia.Proofs.Scan.Front

/-!
# How far readers go

A reader looks ahead before it goes over a unit, by one unit or by a few, depending on what it
reads. Whatever it looks for, it goes over no more units than are left: a token lies within its
text, and where none can be read, reading has stopped at the end of the text or before, over
something that is wrong in the text. So going over what was read never leads past the end.
-/

namespace Marginalia.Scan

variable {α : Type} {limit : Nat}

/-! ## Readings that fail -/

/-- If the reading fails, the fault is one of the text, and so many units at most were gone over. -/
def StopsWithin (limit : Nat) (reading : Reading α) : Prop :=
  ∀ stop, reading = .error stop → stop.fault ≠ .pastEnd ∧ stop.read ≤ limit

namespace StopsWithin

/-- A part that is read stops nowhere. -/
theorem ok (value : α) : StopsWithin limit (.ok value) := nofun

/-- A fault of the text stops where it is. -/
theorem fault {stop : Stop} (known : stop.fault ≠ .pastEnd) (le : stop.read ≤ limit) :
    StopsWithin limit (.error stop : Reading α) := by
  rintro _ ⟨⟩
  exact ⟨known, le⟩

/-- A part that is read behind other units stops as many units later. -/
theorem after {reading : Reading Nat} (within : StopsWithin limit reading) (before : Nat) :
    StopsWithin (before + limit) (reading.after before) := by
  cases reading with
  | ok taken => exact ok _
  | error stop =>
    obtain ⟨known, le⟩ := within stop rfl
    exact fault known (Nat.add_le_add_left le before)

/-- What is made of a part does not change where its reading stops. -/
theorem map {β : Type} {reading : Reading α} (within : StopsWithin limit reading) (f : α → β) :
    StopsWithin limit (reading.map f) := by
  cases reading with
  | ok value => exact ok _
  | error stop => exact fault (within stop rfl).1 (within stop rfl).2

end StopsWithin

/-! ## Readers of parts -/

/-- A run ends within its text. -/
theorem run_le (property : CodeUnit → Bool) (text : Text) : run property text ≤ text.length := by
  obtain ⟨inside, tail, rfl, count, -⟩ := run_split property text
  rw [count, List.length_append]
  exact Nat.le_add_right _ _

/-- What a text opens with is not longer than the text. -/
theorem length_le_of_opensWith {opening : String} {text : Text}
    (opens : opensWith opening text = true) : (Text.ofString opening).length ≤ text.length := by
  obtain ⟨rest, rfl⟩ := (opensWith_iff opening text).mp opens
  simp

/-- A part that is delimited lies in its text. -/
theorem Delimits.le {read : Text → ρ} {result : Nat → ρ} {mark : Text}
    (delimits : Delimits read result mark) {text : Text} {taken : Nat}
    (found : read text = result taken) : taken ≤ text.length := by
  obtain ⟨body, rest, rfl, rfl, -⟩ := delimits text taken found
  simp only [List.length_append]
  omega

/-- An escape stops within the text behind its backslash. -/
theorem escape_stops (text : Text) : StopsWithin text.length (escape text) := by
  unfold escape
  split
  · rename_i braced
    have two : 2 ≤ text.length := length_le_of_opensWith braced
    have digits := run_le CodeUnit.isHexDigit (text.drop 2)
    rw [List.length_drop] at digits
    dsimp only
    split
    · exact .ok _
    · exact .fault (by simp)
        (by show 2 + run CodeUnit.isHexDigit (text.drop 2) ≤ text.length; omega)
  · split
    · exact .fault (by simp) (Nat.zero_le _)
    · split
      · exact .ok _
      · exact .fault (by simp) (Nat.zero_le _)

/-- Behind an escape that is read, reading stops as it does in what is left. -/
theorem stopsWithin_escape {rest : Text} {taken : Nat} (read : escape rest = .ok taken)
    {end? : Text → Reading Nat}
    (within : StopsWithin (rest.drop taken).length (end? (rest.drop taken))) :
    StopsWithin (rest.length + 1) ((end? (rest.drop taken)).after (1 + taken)) := by
  have le := escape_delimits.le read
  have later := within.after (1 + taken)
  rw [List.length_drop] at later
  rwa [show rest.length + 1 = 1 + taken + (rest.length - taken) by omega]

/-- A string on one line stops within the text behind its opening quote. -/
theorem lineStringEnd_stops (text : Text) : StopsWithin text.length (lineStringEnd text) := by
  induction text using lineStringEnd.induct with
  | case1 =>
    rw [lineStringEnd]
    exact .fault (by simp) (Nat.zero_le _)
  | case2 rest =>
    rw [lineStringEnd, if_pos rfl]
    exact .ok _
  | case3 rest notQuote =>
    rw [lineStringEnd, if_neg notQuote, if_pos rfl]
    exact .fault (by simp) (Nat.zero_le _)
  | case4 rest stop fault notQuote notNewline =>
    rw [lineStringEnd, if_neg notQuote, if_neg notNewline, if_pos rfl, fault]
    obtain ⟨known, le⟩ := escape_stops rest stop fault
    exact .fault known (by show 1 + stop.read ≤ rest.length + 1; omega)
  | case5 rest taken read notQuote notNewline ih =>
    rw [lineStringEnd, if_neg notQuote, if_neg notNewline, if_pos rfl, read]
    exact stopsWithin_escape read ih
  | case6 u rest notQuote notNewline notEscape ih =>
    rw [lineStringEnd, if_neg notQuote, if_neg notNewline, if_neg notEscape,
      List.length_cons, Nat.add_comm]
    exact ih.after 1

/-- A triple-quoted string stops within the text behind its opening. -/
theorem blockStringEnd_stops (text : Text) : StopsWithin text.length (blockStringEnd text) := by
  induction text using blockStringEnd.induct with
  | case1 =>
    rw [blockStringEnd]
    exact .fault (by simp) (Nat.zero_le _)
  | case2 u rest closes =>
    rw [blockStringEnd, if_pos closes]
    exact .ok _
  | case3 rest stop fault stays =>
    rw [blockStringEnd, if_neg stays, if_pos rfl, fault]
    obtain ⟨known, le⟩ := escape_stops rest stop fault
    exact .fault known (by show 1 + stop.read ≤ rest.length + 1; omega)
  | case4 rest taken read stays ih =>
    rw [blockStringEnd, if_neg stays, if_pos rfl, read]
    exact stopsWithin_escape read ih
  | case5 u rest stays notEscape ih =>
    rw [blockStringEnd, if_neg stays, if_neg notEscape, List.length_cons, Nat.add_comm]
    exact ih.after 1

/-! ## Readers of tokens -/

/-- A string stops within its text. -/
theorem string_stops (u : CodeUnit) (rest : Text) :
    StopsWithin (rest.length + 1) (string (u :: rest)) := by
  unfold string
  split
  · rename_i triple
    have three : 3 ≤ rest.length + 1 := length_le_of_opensWith triple
    have inside := (blockStringEnd_stops ((u :: rest).drop 3)).after 3
    rw [List.length_drop, List.length_cons] at inside
    rwa [show rest.length + 1 = 3 + (rest.length + 1 - 3) by omega]
  · rw [Nat.add_comm]
    exact (lineStringEnd_stops rest).after 1

/-- What stands between the quotes of a character stops within the text behind the first of them. -/
theorem characterBody_stops (text : Text) : StopsWithin text.length (characterBody text) := by
  unfold characterBody
  split
  · exact .fault (by simp) (Nat.zero_le _)
  · rename_i u rest
    split
    · exact .fault (by simp) (Nat.zero_le _)
    · split
      · rw [List.length_cons, Nat.add_comm]
        exact (escape_stops rest).after 1
      · exact .ok _

/-- A character stops within its text. -/
theorem character_stops (u : CodeUnit) (rest : Text) :
    StopsWithin (rest.length + 1) (character (u :: rest)) := by
  have body : StopsWithin (rest.length + 1) ((characterBody ((u :: rest).drop 1)).after 1) := by
    rw [Nat.add_comm]
    exact (characterBody_stops rest).after 1
  unfold character
  split
  · rename_i stop fault
    exact .fault (body stop fault).1 (body stop fault).2
  · rename_i taken read
    obtain ⟨inner, inside, rfl⟩ := after_eq_ok.mp read
    have le : inner ≤ rest.length := characterBody_delimits.le inside
    split
    · exact .ok _
    · exact .fault (by simp) (by show 1 + inner ≤ rest.length + 1; omega)

/-- A number stops within its text, which it does behind the mark of its base only. -/
theorem number_stops (text : Text) : StopsWithin text.length (number text) := by
  unfold number
  split
  · rename_i marked
    have two : 2 ≤ text.length := by
      rcases Bool.or_eq_true_iff.mp marked with lower | upper
      · exact length_le_of_opensWith lower
      · exact length_le_of_opensWith upper
    split
    · exact .fault (by simp) two
    · exact .ok _
  · exact .ok _

/-- A block comment that does not close stops at the end of its text. -/
theorem blockComment_stops (text : Text) : StopsWithin text.length (blockComment text) := by
  unfold blockComment
  split
  · exact .ok _
  · exact .fault (by simp) (Nat.le_refl _)

/-- A shader block that does not close stops at the end of its text. -/
theorem shader_stops (text : Text) : StopsWithin text.length (shader text) := by
  unfold shader
  split
  · exact .ok _
  · exact .fault (by simp) (Nat.le_refl _)

/-- Where no token can be read, reading stops at the end of the text or before. -/
theorem front_stops (first : CodeUnit) (rest : Text) :
    StopsWithin (rest.length + 1) (front first rest) := by
  by_cases special : opensSpecial (first :: rest) = true
  · unfold front
    dsimp only
    simp only [opensSpecial, Bool.or_eq_true] at special
    split
    · exact .ok _
    · split
      · exact (blockComment_stops (first :: rest)).map _
      · rename_i noLine noBlock
        rw [if_pos (by simpa [noLine, noBlock] using special)]
        exact (shader_stops (first :: rest)).map _
  · rw [front_plain special]
    split
    · exact .ok _
    · split
      · exact (number_stops (first :: rest)).map _
      · split
        · exact (string_stops first rest).map _
        · split
          · exact (character_stops first rest).map _
          · split
            · exact .ok _
            · split
              · exact .ok _
              · exact .fault (by simp) (Nat.zero_le _)

/-! ## Going over what was read -/

/-- Going over no more units than are left leads behind them. -/
theorem advanceBy_of_le {count : Nat} {text : Text}
    (le : count ≤ text.length) (position : Position) :
    advanceBy position count text = .ok (position.advance (text.take count)) := by
  induction count generalizing position text with
  | zero => rfl
  | succ count ih =>
    cases text with
    | nil => simp at le
    | cons u rest =>
      rw [advanceBy, ih (by simpa using le), List.take_succ_cons]
      rfl

end Marginalia.Scan
