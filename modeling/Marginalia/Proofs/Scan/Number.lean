import Marginalia.Proofs.Scan.Boundary

/-!
# Numbers as tokens

A number looks behind itself for a fraction and an exponent, each of which has to have a digit. The
two forms of a number are `NumberShape`, and what follows a number does not change it, as long as it
may stand there.
-/

namespace Marginalia.Scan

/-- A run of digits is not empty exactly when a digit comes first. -/
theorem run_isDigit_ne_zero (text : Text) :
    run CodeUnit.isDigit text ≠ 0 ↔ ∃ d rest, text = d :: rest ∧ d.isDigit = true := by
  cases text with
  | nil => simp [run]
  | cons d rest =>
    by_cases digit : d.isDigit = true <;> simp [run, digit]

/-- The units of a fraction: none without digits after the point. -/
theorem fraction_point (rest : Text) :
    fraction (.ofChar '.' :: rest) =
      if run CodeUnit.isDigit rest = 0 then 0 else 1 + run CodeUnit.isDigit rest := by
  simp only [fraction, ↓reduceIte]
  split
  · rename_i none
    rw [if_pos none]
  · rename_i some
    rw [if_neg (fun none => some none)]

/-- There is a fraction exactly when a digit follows a point. -/
theorem fraction_ne_zero (text : Text) :
    fraction text ≠ 0 ↔ ∃ d rest, text = .ofChar '.' :: d :: rest ∧ d.isDigit = true := by
  cases text with
  | nil => simp [fraction]
  | cons point rest =>
    by_cases isPoint : point = .ofChar '.'
    · subst isPoint
      have digits := run_isDigit_ne_zero rest
      rw [fraction_point]
      by_cases none : run CodeUnit.isDigit rest = 0 <;> simp_all
    · simp [fraction, isPoint]

/-- One or more digits. -/
def DigitPart (property : CodeUnit → Bool) (part : Text) : Prop := part ≠ [] ∧
  ∀ u ∈ part, property u = true

/-- A point and digits after it, or nothing. -/
def FractionPart (part : Text) : Prop :=
  part = [] ∨ ∃ digits, part = .ofChar '.' :: digits ∧ DigitPart CodeUnit.isDigit digits

/-- The units of a fraction do not depend on what may stand behind them. -/
theorem fraction_fades (text : Text) :
    ∃ part after, text = part ++ after ∧ fraction text = part.length ∧ FractionPart part ∧
      ∀ other, Fades after other → fraction (part ++ other) = part.length := by
  by_cases none : fraction text = 0
  · refine ⟨[], text, rfl, none, .inl rfl, fun other fades => ?_⟩
    by_contra some
    obtain ⟨d, rest, same, digit⟩ := (fraction_ne_zero other).mp some
    obtain ⟨before, rfl⟩ := fades.front [.ofChar '.', d] rest same
      (by simp [notBlank_of CodeUnit.isDigit (by decide) digit]; decide)
    exact (fraction_ne_zero _).mpr ⟨d, before, rfl, digit⟩ none
  · obtain ⟨d, rest, rfl, digit⟩ := (fraction_ne_zero text).mp none
    obtain ⟨digits, after, same, count, all, always⟩ :=
      run_fades (blanks_lack CodeUnit.isDigit (by decide)) (d :: rest)
    have some : digits.length ≠ 0 := by
      rw [← count]
      exact (run_isDigit_ne_zero _).mpr ⟨d, rest, rfl, digit⟩
    have shape : FractionPart (.ofChar '.' :: digits) :=
      .inr ⟨digits, rfl, List.length_pos_iff.mp (Nat.pos_of_ne_zero some), all⟩
    refine ⟨.ofChar '.' :: digits, after, by simp [same], ?_, shape, fun other fades => ?_⟩
    · rw [fraction_point, count, if_neg some, List.length_cons, Nat.add_comm]
    · rw [List.cons_append, fraction_point, always other fades, if_neg some,
        List.length_cons, Nat.add_comm]

/-- The units that mark an exponent. -/
def isExponentMark (u : CodeUnit) : Bool := u = .ofChar 'e' ∨ u = .ofChar 'E'

/-- The marks of an exponent are a letter in either case. -/
theorem isExponentMark_iff {u : CodeUnit} :
    isExponentMark u = true ↔ u = .ofChar 'e' ∨ u = .ofChar 'E' := decide_eq_true_iff

/-- The mark of an exponent is no decimal digit. -/
theorem isDigit_of_isExponentMark {u : CodeUnit} (isMark : isExponentMark u = true) :
    u.isDigit = false := by
  rcases isExponentMark_iff.mp isMark with rfl | rfl <;> decide

/-- The units that may stand before the digits of an exponent. -/
def isSign (u : CodeUnit) : Bool := u = .ofChar '+' ∨ u = .ofChar '-'

/-- The number of signs at the front of a text, at most one. -/
def signLength (text : Text) : Nat := if text.head?.any isSign then 1 else 0

/-- A sign or none. -/
def SignPart (part : Text) : Prop := part = [] ∨ ∃ s, part = [s] ∧ isSign s = true

/-- A digit is no sign. -/
theorem isSign_of_isDigit {u : CodeUnit} (digit : u.isDigit = true) : isSign u = false := by
  have notPlus : u ≠ .ofChar '+' := by
    rintro rfl
    exact absurd digit (by decide)
  have notMinus : u ≠ .ofChar '-' := by
    rintro rfl
    exact absurd digit (by decide)
  simp [isSign, notPlus, notMinus]

/-- Before a digit the sign is what stands in front. -/
theorem signLength_append {sign : Text} (signed : SignPart sign) {d : CodeUnit}
    (digit : d.isDigit = true) (rest : Text) : signLength (sign ++ d :: rest) = sign.length := by
  rcases signed with rfl | ⟨s, rfl, isSign⟩
  · simp [signLength, isSign_of_isDigit digit]
  · simp [signLength, isSign]

/-- What is left behind the sign at the front of a text. -/
theorem sign_split (text : Text) :
    ∃ sign, SignPart sign ∧ text = sign ++ text.drop (signLength text) := by
  by_cases signed : text.head?.any isSign = true
  · cases text with
    | nil => simp at signed
    | cons s rest => exact ⟨[s], .inr ⟨s, rfl, by simpa using signed⟩, by simp_all [signLength]⟩
  · exact ⟨[], .inl rfl, by simp [signLength, signed]⟩

/-- The units of an exponent: none without digits after its mark and sign. -/
theorem exponent_mark {mark : CodeUnit} (isMark : isExponentMark mark = true) (rest : Text) :
    exponent (mark :: rest) =
      if run CodeUnit.isDigit (rest.drop (signLength rest)) = 0 then 0
      else 1 + signLength rest + run CodeUnit.isDigit (rest.drop (signLength rest)) := by
  have marked := isExponentMark_iff.mp isMark
  simp only [exponent, if_pos marked]
  split
  · rename_i none
    change run CodeUnit.isDigit (rest.drop (signLength rest)) = 0 at none
    rw [if_pos none]
  · rename_i some
    change ¬ run CodeUnit.isDigit (rest.drop (signLength rest)) = 0 at some
    rw [if_neg some]
    rfl

/-- There is an exponent exactly when a digit follows its mark and sign. -/
theorem exponent_ne_zero (text : Text) :
    exponent text ≠ 0 ↔ ∃ mark sign d rest, text = mark :: (sign ++ d :: rest) ∧
      isExponentMark mark = true ∧ SignPart sign ∧ d.isDigit = true := by
  constructor
  · intro some
    cases text with
    | nil => simp [exponent] at some
    | cons mark rest =>
      by_cases isMark : isExponentMark mark = true
      · rw [exponent_mark isMark] at some
        obtain ⟨sign, signed, same⟩ := sign_split rest
        have digits : run CodeUnit.isDigit (rest.drop (signLength rest)) ≠ 0 := by
          intro none
          simp [none] at some
        obtain ⟨d, after, behind, digit⟩ := (run_isDigit_ne_zero _).mp digits
        exact ⟨mark, sign, d, after, by rw [← behind, ← same], isMark, signed, digit⟩
      · have unmarked := mt isExponentMark_iff.mpr isMark
        simp [exponent, unmarked] at some
  · rintro ⟨mark, sign, d, rest, rfl, isMark, signed, digit⟩
    rw [exponent_mark isMark, signLength_append signed digit, List.drop_left]
    have digits := (run_isDigit_ne_zero (d :: rest)).mpr ⟨d, rest, rfl, digit⟩
    rw [if_neg digits]
    omega

/-- The mark of an exponent, perhaps a sign, and digits, or nothing. -/
def ExponentPart (part : Text) : Prop :=
  part = [] ∨ ∃ mark sign digits, part = mark :: (sign ++ digits) ∧ isExponentMark mark = true ∧
    SignPart sign ∧ DigitPart CodeUnit.isDigit digits

/-- The units of an exponent do not depend on what may stand behind them. -/
theorem exponent_fades (text : Text) :
    ∃ part after, text = part ++ after ∧ exponent text = part.length ∧ ExponentPart part ∧
      ∀ other, Fades after other → exponent (part ++ other) = part.length := by
  by_cases none : exponent text = 0
  · refine ⟨[], text, rfl, none, .inl rfl, fun other fades => ?_⟩
    by_contra some
    obtain ⟨mark, sign, d, rest, same, isMark, signed, digit⟩ := (exponent_ne_zero other).mp some
    have noBlank : ∀ u ∈ mark :: (sign ++ [d]), isBlank u = false := by
      have markSolid := notBlank_of isExponentMark (by decide) isMark
      have digitSolid := notBlank_of CodeUnit.isDigit (by decide) digit
      rcases signed with rfl | ⟨s, rfl, isSign⟩
      · simp [markSolid, digitSolid]
      · simp [markSolid, digitSolid, notBlank_of _ (by decide) isSign]
    obtain ⟨before, rfl⟩ := fades.front (mark :: (sign ++ [d])) rest (by simpa using same) noBlank
    exact (exponent_ne_zero _).mpr ⟨mark, sign, d, before, by simp, isMark, signed, digit⟩ none
  · obtain ⟨mark, sign, d, rest, rfl, isMark, signed, digit⟩ := (exponent_ne_zero text).mp none
    obtain ⟨digits, after, same, count, all, always⟩ :=
      run_fades (blanks_lack CodeUnit.isDigit (by decide)) (d :: rest)
    obtain ⟨digits, rfl⟩ : ∃ more, digits = d :: more := by
      cases digits with
      | nil => exact absurd count ((run_isDigit_ne_zero _).mpr ⟨d, rest, rfl, digit⟩)
      | cons e more => exact ⟨more, by rw [(List.cons.inj same).1]⟩
    have shape : ExponentPart (mark :: (sign ++ d :: digits)) :=
      .inr ⟨mark, sign, d :: digits, rfl, isMark, signed, by simp, all⟩
    refine ⟨mark :: (sign ++ d :: digits), after, by simp [same], ?_, shape, fun other fades => ?_⟩
    · rw [exponent_mark isMark, signLength_append signed digit, List.drop_left, count]
      simp; omega
    · rw [List.cons_append, List.append_assoc, List.cons_append, exponent_mark isMark,
        signLength_append signed digit, List.drop_left, ← List.cons_append, always other fades]
      simp; omega

/-- The two forms of a number. -/
inductive NumberShape : Text → Prop where
  | hexadecimal {mark digits : Text}
      (marked : mark = Text.ofString "0x" ∨ mark = Text.ofString "0X")
      (some : DigitPart CodeUnit.isHexDigit digits) : NumberShape (mark ++ digits)
  | decimal {whole part power : Text} (all : ∀ u ∈ whole, u.isDigit = true)
      (fraction : FractionPart part) (exponent : ExponentPart power) :
      NumberShape (whole ++ (part ++ power))

/-- The text opens with the mark of a hexadecimal number. -/
def isHexMarked (text : Text) : Bool := Scan.opensWith "0x" text || Scan.opensWith "0X" text

/-- The mark of a hexadecimal number stands in front of it. -/
theorem isHexMarked_iff (text : Text) :
    isHexMarked text = true ↔ ∃ mark rest, text = mark ++ rest ∧
      (mark = Text.ofString "0x" ∨ mark = Text.ofString "0X") := by
  rw [isHexMarked, Bool.or_eq_true, opensWith_iff, opensWith_iff]
  constructor
  · rintro (⟨rest, rfl⟩ | ⟨rest, rfl⟩)
    · exact ⟨_, rest, rfl, .inl rfl⟩
    · exact ⟨_, rest, rfl, .inr rfl⟩
  · rintro ⟨mark, rest, rfl, rfl | rfl⟩
    · exact .inl ⟨rest, rfl⟩
    · exact .inr ⟨rest, rfl⟩

/-- A text that fades is marked only where it was marked before. -/
theorem Fades.isHexMarked {text other : Text} (fades : Fades text other)
    (marked : Scan.isHexMarked other = true) : Scan.isHexMarked text = true := by
  rw [Scan.isHexMarked, Bool.or_eq_true] at *
  exact marked.imp (fades.opensWith (by decide)) (fades.opensWith (by decide))

/-- The units of a hexadecimal number. -/
theorem number_hexadecimal {mark : Text}
      (marked : mark = Text.ofString "0x" ∨ mark = Text.ofString "0X")
    (rest : Text) :
    number (mark ++ rest) =
      if run CodeUnit.isHexDigit rest = 0 then .error ⟨.missingHexDigits, 2⟩
      else .ok (2 + run CodeUnit.isHexDigit rest) := by
  have isMarked : isHexMarked (mark ++ rest) = true :=
    (isHexMarked_iff _).mpr ⟨mark, rest, rfl, marked⟩
  have dropped : (mark ++ rest).drop 2 = rest := by rcases marked with rfl | rfl <;> rfl
  rw [isHexMarked] at isMarked
  rw [number, if_pos isMarked, dropped]
  split
  · rename_i none
    rw [if_pos none]
  · rename_i some
    rw [if_neg (fun none => some none)]

/-- The units of a decimal number, by its parts. -/
theorem number_decimal {whole part power tail : Text}
    (unmarked : ¬ isHexMarked (whole ++ (part ++ (power ++ tail))) = true)
    (wholeLength : run CodeUnit.isDigit (whole ++ (part ++ (power ++ tail))) = whole.length)
    (partLength : fraction (part ++ (power ++ tail)) = part.length)
    (powerLength : exponent (power ++ tail) = power.length) :
    number (whole ++ (part ++ (power ++ tail))) = .ok (whole ++ (part ++ power)).length := by
  rw [isHexMarked] at unmarked
  rw [number, if_neg unmarked]
  simp only [wholeLength, List.drop_left, partLength]
  rw [← List.drop_drop, List.drop_left, List.drop_left, powerLength]
  simp [Nat.add_assoc]

/-- A number goes on in the same way whatever may stand behind it. -/
theorem number_takes : Takes number .ok NumberShape := by
  intro text taken read
  by_cases isMarked : isHexMarked text = true
  · obtain ⟨mark, rest, rfl, marked⟩ := (isHexMarked_iff text).mp isMarked
    have markLength : mark.length = 2 := by rcases marked with rfl | rfl <;> rfl
    obtain ⟨digits, after, rfl, count, all, always⟩ :=
      run_fades (blanks_lack CodeUnit.isHexDigit (by decide)) rest
    rw [number_hexadecimal marked, count] at read
    split at read
    · cases read
    · rename_i some
      obtain rfl := Except.ok.inj read
      have present : digits ≠ [] := List.length_pos_iff.mp (Nat.pos_of_ne_zero some)
      refine ⟨mark ++ digits, after, by simp, by simp [markLength],
        .hexadecimal marked ⟨present, all⟩, fun other boundary => ?_⟩
      rw [List.append_assoc, number_hexadecimal marked, always other boundary.fades, if_neg some]
  · obtain ⟨whole, afterWhole, rfl, wholeLength, all, wholeAlways⟩ :=
      run_fades (blanks_lack CodeUnit.isDigit (by decide)) text
    obtain ⟨part, afterPart, rfl, partLength, partShape, partAlways⟩ := fraction_fades afterWhole
    obtain ⟨power, after, rfl, powerLength, powerShape, powerAlways⟩ := exponent_fades afterPart
    rw [number_decimal isMarked wholeLength partLength powerLength] at read
    obtain rfl := Except.ok.inj read
    refine ⟨whole ++ (part ++ power), after, by simp, rfl, .decimal all partShape powerShape,
      fun other boundary => ?_⟩
    have fadesPower := boundary.fades.append power
    have fadesPart := fadesPower.append part
    have unmarked : ¬ isHexMarked (whole ++ (part ++ (power ++ other))) = true :=
      fun marked => isMarked ((fadesPart.append whole).isHexMarked marked)
    rw [List.append_assoc, List.append_assoc]
    exact number_decimal unmarked (wholeAlways _ fadesPart) (partAlways _ fadesPower)
      (powerAlways _ boundary.fades)

/-- A number that begins with a digit takes that digit. -/
theorem number_ne_zero {first : CodeUnit} (isDigit : first.isDigit = true) (rest : Text) :
    number (first :: rest) ≠ .ok 0 := by
  intro read
  unfold number at read
  split at read
  · split at read
    · cases read
    · have count := Except.ok.inj read
      omega
  · have count := Except.ok.inj read
    rw [run_cons isDigit] at count
    omega

end Marginalia.Scan
