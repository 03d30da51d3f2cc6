import Marginalia.Proofs.Json.Quoting

/-!
# Reading what is written

The text of a value is read back as the value, at any indent and with anything behind it that no
number goes on in. Real numbers are left out: one number has several decimals.
-/

namespace Marginalia

/-- A number above zero does not begin with a zero. -/
theorem Text.head?_ofNat {n : Nat} (positive : 0 < n) : (ofNat n).head? ≠ some (.ofChar '0') := by
  have digits : ∀ digit < 10, 0 < digit → CodeUnit.ofDigit digit ≠ .ofChar '0' := by decide
  induction n using Nat.strongRecOn with
  | _ n ih =>
    by_cases small : n < 10
    · have one : ofNat n = [CodeUnit.ofDigit n] := inBase_of_lt (by decide) small
      rw [one, List.head?_cons, ne_eq, Option.some.injEq]
      exact digits n small positive
    · have split : ofNat n = ofNat (n / 10) ++ [CodeUnit.ofDigit (n % 10)] :=
        inBase_of_le (by decide) (by decide) (by omega)
      have some : ofNat (n / 10) ≠ [] := inBase_ne_nil 10 _
      rw [split, List.head?_append_of_ne_nil _ some]
      exact ih (n / 10) (by omega) (by omega)

namespace Json

/-! ## Exact values -/

/-- A value without real numbers. -/
inductive Exact : Json → Prop
  | null : Exact null
  | bool (value : Bool) : Exact (bool value)
  | natural (value : Nat) : Exact (natural value)
  | string (value : Text) : Exact (string value)
  | array {elements : List Json} (inside : ∀ element ∈ elements, Exact element) :
      Exact (array elements)
  | object {members : List (Text × Json)} (inside : ∀ member ∈ members, Exact member.2) :
      Exact (object members)

namespace Reader

/-! ## Words and blanks -/

variable {text rest more : Text} {u : CodeUnit} {value : Json} {indent depth : Nat}

/-- No word is taken where its first unit does not stand. -/
theorem word?_eq_none {word : String} (spelled : Text.ofString word = u :: more)
    (other : text.head? ≠ some u) : word? word text = none := by
  have notThere : ¬(Text.ofString word).isPrefixOf text = true := by
    intro begins
    obtain ⟨behind, rfl⟩ := List.isPrefixOf_iff_prefix.mp begins
    rw [spelled] at other
    exact other rfl
  rw [word?]
  exact if_neg notThere

/-- Where something solid stands there are no blanks to skip. -/
theorem skipBlanks_solid (solid : isBlank u = false) : skipBlanks (u :: rest) = u :: rest := by
  rw [skipBlanks, List.dropWhile_cons_of_neg (by simp [solid])]

/-- Blanks are skipped. -/
theorem skipBlanks_append {blanks : Text} (areBlanks : ∀ u ∈ blanks, isBlank u = true)
    (rest : Text) : skipBlanks (blanks ++ rest) = skipBlanks rest := by
  rw [skipBlanks, List.dropWhile_append_of_pos areBlanks]
  rfl

/-- A line break and an indentation are blanks. -/
theorem isBlank_lineBreak (indent depth : Nat) :
    ∀ u ∈ lineBreak indent depth, isBlank u = true := by
  intro u member
  rw [lineBreak] at member
  by_cases flat : indent = 0
  · simp [flat] at member
  · rw [if_neg flat] at member
    rcases List.mem_cons.mp member with rfl | inBlanks
    · decide
    · rw [List.eq_of_mem_replicate inBlanks]
      decide

/-- The mark of a key is taken with no more than blanks behind it. -/
theorem word?_keyMark (indent : Nat) (rest : Text) :
    ∃ behind, word? ":" (skipBlanks (keyMark indent ++ rest)) = some behind ∧
      skipBlanks behind = skipBlanks rest := by
  rw [keyMark]
  by_cases flat : indent = 0
  · rw [if_pos flat]
    exact ⟨rest, rfl, rfl⟩
  · rw [if_neg flat]
    exact ⟨.ofChar ' ' :: rest, rfl, rfl⟩

/-- Blanks in front of a value do not matter. -/
theorem value?_skip (same : skipBlanks text = skipBlanks rest) (parts : Nat) :
    value? parts text = value? parts rest := by
  cases parts with
  | zero => rfl
  | succ parts => rw [value?, value?, same]

/-- Blanks in front of elements do not matter. -/
theorem elements?_skip (same : skipBlanks text = skipBlanks rest) (parts : Nat) :
    elements? parts text = elements? parts rest := by
  cases parts with
  | zero => rfl
  | succ parts => rw [elements?, elements?, value?_skip same]

/-- Blanks in front of members do not matter. -/
theorem members?_skip (same : skipBlanks text = skipBlanks rest) (parts : Nat) :
    members? parts text = members? parts rest := by
  cases parts with
  | zero => rfl
  | succ parts => rw [members?, members?, same]

/-! ## Numbers -/

/-- A digit is no other mark. -/
theorem ne_of_isDigit {mark : CodeUnit} (isDigit : u.isDigit = true) (none : mark.isDigit = false) :
    u ≠ mark := by
  rintro rfl
  rw [isDigit] at none
  cases none

/-- A digit is no blank. -/
theorem isBlank_of_isDigit (isDigit : u.isDigit = true) : isBlank u = false := by
  have other (blank : CodeUnit) (none : blank.isDigit = false) : u ≠ blank :=
    ne_of_isDigit isDigit none
  simp [isBlank, other 0x20 (by decide), other 0x09 (by decide), other 0x0A (by decide),
    other 0x0D (by decide)]

/-- The unit goes on a number that stands before it. -/
def goesOnNumber (u : CodeUnit) : Bool :=
  u.isDigit || u == .ofChar '.' || u == .ofChar 'e' || u == .ofChar 'E'

/-- No number goes on in the text. -/
def EndsNumber (text : Text) : Prop := ∀ u ∈ text.head?, goesOnNumber u = false

/-- The digits of a number are read as the number. -/
theorem number?_ofNat (n : Nat) (ends : EndsNumber rest) :
    number? (Text.ofNat n ++ rest) = some (.natural n, rest) := by
  obtain ⟨some, areDigits⟩ := Text.digitPart_ofNat n
  have notMark (mark : CodeUnit) (goesOn : goesOnNumber mark = true) :
      rest.head? ≠ Option.some mark := by
    intro first
    have stops := ends mark first
    rw [goesOn] at stops
    cases stops
  have unsigned : word? "-" (Text.ofNat n ++ rest) = none := by
    refine word?_eq_none rfl ?_
    rw [List.head?_append_of_ne_nil _ some]
    intro first
    have isDigit := areDigits _ (List.mem_of_head? first)
    revert isDigit
    decide
  have taken : (Text.ofNat n ++ rest).takeWhile CodeUnit.isDigit = Text.ofNat n := by
    have none : rest.takeWhile CodeUnit.isDigit = [] := by
      cases rest with
      | nil => rfl
      | cons u more =>
        have stops := ends u rfl
        rw [goesOnNumber, Bool.or_eq_false_iff, Bool.or_eq_false_iff, Bool.or_eq_false_iff] at stops
        exact List.takeWhile_cons_of_neg (by simp [stops.1.1.1])
    rw [List.takeWhile_append_of_pos areDigits, none, List.append_nil]
  have noZero :
      ¬((Text.ofNat n).head? = Option.some (.ofChar '0') ∧ (Text.ofNat n).length ≠ 1) := by
    rintro ⟨first, long⟩
    by_cases positive : 0 < n
    · exact Text.head?_ofNat positive first
    · obtain rfl : n = 0 := by omega
      exact long rfl
  have whole : whole? (Text.ofNat n ++ rest) = Option.some (Text.ofNat n, rest) := by
    rw [whole?, digits?, taken]
    simp [some, noZero]
  have fraction : fraction? rest = Option.some ([], rest) := by
    rw [fraction?, word?_eq_none rfl (notMark (.ofChar '.') (by decide))]
  have exponent : exponent? rest = Option.some (none, rest) := by
    rw [exponent?, word?_eq_none rfl (notMark (.ofChar 'e') (by decide)),
      word?_eq_none rfl (notMark (.ofChar 'E') (by decide))]
    rfl
  have same : Decimal.valueOf 10 (Text.ofNat n) = n :=
    Decimal.valueOf_inBase (by decide) (by decide) n
  simp [number?, unsigned, whole, fraction, exponent, same]

/-- Behind a line break and an indentation no number goes on before a mark. -/
theorem endsNumber_lineBreak {mark : CodeUnit} (stops : goesOnNumber mark = false)
    (indent depth : Nat) (rest : Text) : EndsNumber (lineBreak indent depth ++ mark :: rest) := by
  intro u first
  rw [lineBreak] at first
  by_cases flat : indent = 0
  · rw [if_pos flat] at first
    obtain rfl := Option.some.inj first
    exact stops
  · rw [if_neg flat] at first
    obtain rfl := Option.some.inj first
    decide

/-! ## Values -/

/-- The text of a value is read as the value, whatever is behind it that no number goes on in. -/
def ReadsBack (indent depth : Nat) (value : Json) : Prop :=
  ∀ parts rest, 2 * (renderAt indent depth value).length ≤ parts + 1 → EndsNumber rest →
    value? (parts + 1) (renderAt indent depth value ++ rest) = some (value, skipBlanks rest)

/-- The text of a value begins with a unit that is no blank and closes nothing. -/
theorem renderAt_front (exact : value.Exact) (indent depth : Nat) :
    ∃ u more, renderAt indent depth value = u :: more ∧ isBlank u = false ∧ u ≠ .ofChar ']' := by
  cases exact with
  | null => exact ⟨_, _, rfl, by decide⟩
  | bool b => cases b <;> exact ⟨_, _, rfl, by decide⟩
  | natural n =>
    obtain ⟨some, areDigits⟩ := Text.digitPart_ofNat n
    cases digits : Text.ofNat n with
    | nil => exact absurd digits some
    | cons u more =>
      have isDigit : u.isDigit = true := areDigits u (by simp [digits])
      exact ⟨u, more, by rw [renderAt, digits], isBlank_of_isDigit isDigit,
        ne_of_isDigit isDigit (by decide)⟩
  | string s => exact ⟨_, _, rfl, by decide⟩
  | @array elements _ => cases elements <;> exact ⟨_, _, rfl, by decide⟩
  | @object members _ => cases members <;> exact ⟨_, _, rfl, by decide⟩

/-- Elements are read back up to the closing bracket, if each of them is. -/
theorem elements?_render {first : Json} {others : List Json}
    (reads : ∀ element ∈ first :: others, ReadsBack indent depth element) (outer parts : Nat)
    (rest : Text) (enough : 2 * ((renderAt indent depth first).length +
      (renderElements indent depth others).length) + 2 ≤ parts) :
    elements? parts (renderAt indent depth first ++ (renderElements indent depth others ++
      (lineBreak indent outer ++ .ofChar ']' :: rest))) = some (first :: others, rest) := by
  obtain ⟨readsFirst, readsOthers⟩ := List.forall_mem_cons.mp reads
  induction others generalizing first parts with
  | nil =>
    obtain ⟨parts, rfl⟩ : ∃ fewer, parts = fewer + 2 := ⟨parts - 2, by omega⟩
    have ends := endsNumber_lineBreak (by decide : goesOnNumber (.ofChar ']') = false)
      indent outer rest
    have read := readsFirst parts _ (by omega) ends
    rw [skipBlanks_append (isBlank_lineBreak indent outer), skipBlanks_solid (by decide)] at read
    have noComma : word? "," (.ofChar ']' :: rest) = none := rfl
    have closed : word? "]" (.ofChar ']' :: rest) = some rest := rfl
    rw [renderElements, List.nil_append, elements?, read]
    simp [noComma, closed]
  | cons next others ih =>
    obtain ⟨parts, rfl⟩ : ∃ fewer, parts = fewer + 2 := ⟨parts - 2, by omega⟩
    obtain ⟨readsNext, readsFurther⟩ := List.forall_mem_cons.mp readsOthers
    have mark : (Text.ofString ",").length = 1 := rfl
    rw [renderElements, List.length_append, List.length_append, List.length_append] at enough
    have onward := ih (fun element member => reads element (.tail _ member)) (parts + 1)
      (by omega) readsNext readsFurther
    let behind := lineBreak indent depth ++ (renderAt indent depth next ++
      (renderElements indent depth others ++ (lineBreak indent outer ++ .ofChar ']' :: rest)))
    have split : renderElements indent depth (next :: others) ++
          (lineBreak indent outer ++ .ofChar ']' :: rest) = .ofChar ',' :: behind := by
      simp only [renderElements, List.append_assoc]
      rfl
    have comma : word? "," (.ofChar ',' :: behind) = some behind := rfl
    have ends : EndsNumber (.ofChar ',' :: behind) := fun u first => Option.some.inj first ▸ by
      decide
    have read := readsFirst parts (.ofChar ',' :: behind) (by omega) ends
    rw [skipBlanks_solid (by decide)] at read
    have again : elements? (parts + 1) behind = some (next :: others, rest) := by
      rw [elements?_skip (skipBlanks_append (isBlank_lineBreak indent depth) _)]
      exact onward
    rw [split, elements?, read]
    simp [comma, again]

/-- A key and the mark behind it are read back. -/
theorem key_read (key : Text) (indent : Nat) (rest : Text) :
    ∃ marked behind, string? (skipBlanks (quote key ++ (keyMark indent ++ rest))) =
      some (key, marked) ∧ word? ":" (skipBlanks marked) = some behind ∧
      skipBlanks behind = skipBlanks rest := by
  obtain ⟨behind, marked, same⟩ := word?_keyMark indent rest
  have solid :
      skipBlanks (quote key ++ (keyMark indent ++ rest)) = quote key ++ (keyMark indent ++ rest) :=
    skipBlanks_solid (by decide : isBlank quoteMark = false)
  refine ⟨keyMark indent ++ rest, behind, ?_, marked, same⟩
  rw [solid, string?_quote]

/-- Members are read back up to the closing brace, if the value of each of them is. -/
theorem members?_render {first : Text × Json} {others : List (Text × Json)}
    (reads : ∀ member ∈ first :: others, ReadsBack indent depth member.2) (outer parts : Nat)
    (rest : Text) (enough : 2 * ((renderAt indent depth first.2).length +
      (renderMembers indent depth others).length) + 2 ≤ parts) :
    members? parts (quote first.1 ++ (keyMark indent ++ (renderAt indent depth first.2 ++
      (renderMembers indent depth others ++ (lineBreak indent outer ++ .ofChar '\x7d' :: rest))))) =
      some (first :: others, rest) := by
  obtain ⟨readsFirst, readsOthers⟩ := List.forall_mem_cons.mp reads
  induction others generalizing first parts with
  | nil =>
    obtain ⟨parts, rfl⟩ : ∃ fewer, parts = fewer + 2 := ⟨parts - 2, by omega⟩
    obtain ⟨marked, behind, keyRead, markRead, same⟩ := key_read first.1 indent
      (renderAt indent depth first.2 ++ (lineBreak indent outer ++ .ofChar '\x7d' :: rest))
    have ends := endsNumber_lineBreak (by decide : goesOnNumber (.ofChar '\x7d') = false)
      indent outer rest
    have read := readsFirst parts _ (by omega) ends
    rw [skipBlanks_append (isBlank_lineBreak indent outer), skipBlanks_solid (by decide),
      ← value?_skip same] at read
    have noComma : word? "," (.ofChar '\x7d' :: rest) = none := rfl
    have closed : word? "\x7d" (.ofChar '\x7d' :: rest) = some rest := rfl
    rw [renderMembers, List.nil_append, members?, keyRead]
    simp [markRead, read, noComma, closed]
  | cons next others ih =>
    obtain ⟨parts, rfl⟩ : ∃ fewer, parts = fewer + 2 := ⟨parts - 2, by omega⟩
    obtain ⟨readsNext, readsFurther⟩ := List.forall_mem_cons.mp readsOthers
    have mark : (Text.ofString ",").length = 1 := rfl
    simp only [renderMembers, List.length_append] at enough
    have onward := ih (fun member inside => reads member (.tail _ inside)) (parts + 1)
      (by omega) readsNext readsFurther
    let following := lineBreak indent depth ++
      (quote next.1 ++ (keyMark indent ++ (renderAt indent depth next.2 ++
        (renderMembers indent depth others ++ (lineBreak indent outer ++ .ofChar '\x7d' :: rest)))))
    have split : renderMembers indent depth (next :: others) ++
          (lineBreak indent outer ++ .ofChar '\x7d' :: rest) = .ofChar ',' :: following := by
      simp only [renderMembers, List.append_assoc]
      rfl
    obtain ⟨marked, behind, keyRead, markRead, same⟩ := key_read first.1 indent
      (renderAt indent depth first.2 ++ .ofChar ',' :: following)
    have comma : word? "," (.ofChar ',' :: following) = some following := rfl
    have ends : EndsNumber (.ofChar ',' :: following) := fun u first => Option.some.inj first ▸ by
      decide
    have read := readsFirst parts (.ofChar ',' :: following) (by omega) ends
    rw [skipBlanks_solid (by decide), ← value?_skip same] at read
    have again : members? (parts + 1) following = some (next :: others, rest) := by
      rw [members?_skip (skipBlanks_append (isBlank_lineBreak indent depth) _)]
      exact onward
    rw [split, members?, keyRead]
    simp [markRead, read, comma, again]

/-- A number is read where a digit stands. -/
theorem value?_number {n : Nat} (parts : Nat) (read : number? (u :: more) = some (.natural n, rest))
    (isDigit : u.isDigit = true) :
    value? (parts + 1) (u :: more) = some (.natural n, skipBlanks rest) := by
  have other (mark : CodeUnit) (none : mark.isDigit = false) : u ≠ mark :=
    ne_of_isDigit isDigit none
  rw [value?, skipBlanks_solid (isBlank_of_isDigit isDigit)]
  simp [other (.ofChar 'n') (by decide), other (.ofChar 't') (by decide),
    other (.ofChar 'f') (by decide), other (.ofChar '"') (by decide),
    other (.ofChar '[') (by decide), other (.ofChar '\x7b') (by decide), read]

/-- A text is read where a quote stands. -/
theorem value?_string {units : Text} (parts : Nat)
    (read : string? (quoteMark :: more) = some (units, rest)) :
    value? (parts + 1) (quoteMark :: more) = some (.string units, skipBlanks rest) := by
  rw [value?, skipBlanks_solid (by decide)]
  dsimp only [List.head?_cons]
  rw [if_neg (by decide), if_neg (by decide), if_neg (by decide), if_pos (by decide), read]
  rfl

/-- Elements are read where a bracket stands. -/
theorem value?_array {elements : List Json} {parts : Nat}
    (some : (skipBlanks more).head? ≠ some (.ofChar ']'))
    (read : elements? parts (skipBlanks more) = .some (elements, rest)) :
    value? (parts + 1) (.ofChar '[' :: more) = .some (.array elements, skipBlanks rest) := by
  rw [value?, skipBlanks_solid (by decide)]
  dsimp only [List.head?_cons]
  rw [if_neg (by decide), if_neg (by decide), if_neg (by decide), if_neg (by decide), if_pos rfl,
    List.drop_one, List.tail_cons, word?_eq_none rfl some, read]
  rfl

/-- Members are read where a brace stands. -/
theorem value?_object {members : List (Text × Json)} {parts : Nat}
    (some : (skipBlanks more).head? ≠ some (.ofChar '\x7d'))
    (read : members? parts (skipBlanks more) = .some (members, rest)) :
    value? (parts + 1) (.ofChar '\x7b' :: more) = .some (.object members, skipBlanks rest) := by
  rw [value?, skipBlanks_solid (by decide)]
  dsimp only [List.head?_cons]
  rw [if_neg (by decide), if_neg (by decide), if_neg (by decide), if_neg (by decide),
    if_neg (by decide), if_pos rfl, List.drop_one, List.tail_cons, word?_eq_none rfl some, read]
  rfl

/-- The text of a value is read back at every depth. -/
theorem readsBack (exact : value.Exact) (indent : Nat) : ∀ depth, ReadsBack indent depth value := by
  induction exact with
  | null => exact fun depth parts rest enough ends => rfl
  | bool b => cases b <;> exact fun depth parts rest enough ends => rfl
  | natural n =>
    intro depth parts rest enough ends
    have read := number?_ofNat n ends
    obtain ⟨some, areDigits⟩ := Text.digitPart_ofNat n
    rw [renderAt]
    cases digits : Text.ofNat n with
    | nil => exact absurd digits some
    | cons u more =>
      rw [digits] at read
      exact value?_number parts read (areDigits u (by simp [digits]))
  | string s => exact fun depth parts rest enough ends => value?_string parts (string?_quote s rest)
  | @array elements inside ih =>
    intro depth parts rest enough ends
    cases elements with
    | nil => rfl
    | cons first others =>
      obtain ⟨u, more, front, solid, notClosed⟩ :=
        renderAt_front (inside first (.head _)) indent (depth + 1)
      let behind := renderAt indent (depth + 1) first ++ (renderElements indent
          (depth + 1) others ++ (lineBreak indent depth ++ .ofChar ']' :: rest))
      have split : renderAt indent depth (.array (first :: others)) ++ rest =
          .ofChar '[' :: (lineBreak indent (depth + 1) ++ behind) := by
        simp only [renderAt, List.append_assoc]
        rfl
      have skipped : skipBlanks (lineBreak indent (depth + 1) ++ behind) = behind := by
        rw [skipBlanks_append (isBlank_lineBreak indent (depth + 1))]
        simp only [behind, front, List.cons_append]
        exact skipBlanks_solid solid
      have some :
          (skipBlanks (lineBreak indent (depth + 1) ++ behind)).head? ≠ some (.ofChar ']') := by
        rw [skipped]
        simp only [behind, front, List.cons_append, List.head?_cons, ne_eq, Option.some.injEq]
        exact notClosed
      have read : elements? parts behind = .some (first :: others, rest) := by
        refine elements?_render (fun element member => ih element member (depth + 1))
          depth parts rest ?_
        have mark : (Text.ofString "[").length = 1 := rfl
        have otherMark : (Text.ofString "]").length = 1 := rfl
        simp only [renderAt, List.length_append] at enough
        omega
      rw [split]
      exact value?_array some (skipped.symm ▸ read)
  | @object members inside ih =>
    intro depth parts rest enough ends
    cases members with
    | nil => rfl
    | cons first others =>
      let behind := quote first.1 ++
        (keyMark indent ++ (renderAt indent (depth + 1) first.2 ++ (renderMembers indent
          (depth + 1) others ++ (lineBreak indent depth ++ .ofChar '\x7d' :: rest))))
      have split : renderAt indent depth (.object (first :: others)) ++ rest =
          .ofChar '\x7b' :: (lineBreak indent (depth + 1) ++ behind) := by
        simp only [renderAt, List.append_assoc]
        rfl
      have skipped : skipBlanks (lineBreak indent (depth + 1) ++ behind) = behind := by
        rw [skipBlanks_append (isBlank_lineBreak indent (depth + 1))]
        exact skipBlanks_solid (by decide : isBlank quoteMark = false)
      have some :
          (skipBlanks (lineBreak indent (depth + 1) ++ behind)).head? ≠ some (.ofChar '\x7d') := by
        rw [skipped]
        exact (by decide : Option.some quoteMark ≠ Option.some (.ofChar '\x7d'))
      have read : members? parts behind = .some (first :: others, rest) := by
        refine members?_render (fun member inside => ih member inside (depth + 1))
          depth parts rest ?_
        have mark : (Text.ofString "\x7b").length = 1 := rfl
        have otherMark : (Text.ofString "\x7d").length = 1 := rfl
        simp only [renderAt, List.length_append] at enough
        omega
      rw [split]
      exact value?_object some (skipped.symm ▸ read)

end Reader

/-- The text of a value with blanks behind it is read as the value. -/
theorem read?_render {value : Json} (exact : value.Exact) (indent : Nat) {blanks : Text}
    (areBlanks : ∀ u ∈ blanks, Reader.isBlank u = true) :
    read? (value.render indent ++ blanks) = some value := by
  have ends : Reader.EndsNumber blanks := by
    intro u first
    have isBlank := areBlanks u (List.mem_of_head? first)
    have stops :
        ∀ blank : CodeUnit, Reader.isBlank blank = true → Reader.goesOnNumber blank = false := by
      intro blank is
      simp only [Reader.isBlank, Bool.or_eq_true, beq_iff_eq] at is
      rcases is with ((rfl | rfl) | rfl) | rfl <;> decide
    exact stops u isBlank
  have nothing : Reader.skipBlanks blanks = [] := by
    have skipped := Reader.skipBlanks_append areBlanks []
    rw [List.append_nil] at skipped
    exact skipped
  have enough :
      2 * (value.render indent).length ≤ 2 * (value.render indent ++ blanks).length + 1 + 1 := by
    rw [List.length_append]
    omega
  have read : Reader.value? (2 * (value.render indent ++ blanks).length + 2)
        (value.render indent ++ blanks) = some (value, Reader.skipBlanks blanks) :=
    Reader.readsBack exact indent 0 _ blanks enough ends
  rw [read?, read, nothing]
  rfl

/-- Different values have different texts. -/
theorem render_inj {value other : Json} (exact : value.Exact) (otherExact : other.Exact)
    {indent : Nat} (same : value.render indent = other.render indent) : value = other := by
  have read := read?_render exact indent (List.forall_mem_nil _)
  have otherRead := read?_render otherExact indent (List.forall_mem_nil _)
  rw [same, otherRead] at read
  exact (Option.some.inj read).symm

end Json

end Marginalia
