import Marginalia.Proofs.Scan.Number

/-!
# The token at the front of a text

What the lexeme of each kind of token looks like is `Shape`. The main statement, `front_takes`, says
of the token at the front of a text that its lexeme has the shape of its kind and lies within the
text, and that the same token is read when another text stands behind it, as far as that text may.
-/

namespace Marginalia

/-- The spelling of the kinds of punctuation that have only one. -/
def TokenKind.mark? : TokenKind → Option String
  | leftParen => some "("
  | rightParen => some ")"
  | leftBrace => some "\x7b"
  | rightBrace => some "\x7d"
  | leftBracket => some "["
  | rightBracket => some "]"
  | comma => some ","
  | dot => some "."
  | range => some ".."
  | colon => some ":"
  | equals => some "="
  | pipe => some "|"
  | arrow => some "->"
  | _ => none

namespace Scan

/-- What the lexemes of a kind of token look like. -/
def Shape (kind : TokenKind) (lexeme : Text) : Prop :=
  match kind with
  | .keyword => isKeyword lexeme = true
  | .lowerIdentifier => ∃ u tail, lexeme = u :: tail ∧ isNameStart u = true ∧ isUpper u = false
  | .upperIdentifier => ∃ u tail, lexeme = u :: tail ∧ isUpper u = true
  | .number => NumberShape lexeme ∧ ∃ u tail, lexeme = u :: tail ∧ u.isDigit = true
  | .string =>
    (∃ body, lexeme = Text.ofString tripleQuote ++ (body ++ Text.ofString tripleQuote)) ∨
      opensWith tripleQuote lexeme = false ∧
        ∃ body, lexeme = Text.ofString "\"" ++ (body ++ Text.ofString "\"")
  | .char => ∃ body, lexeme = Text.ofString "'" ++ (body ++ Text.ofString "'")
  | .operator => TokenKind.ofOperator lexeme = .operator
  | .backslash => lexeme = Text.ofString "\\" ∨ lexeme = Text.ofString "λ"
  | .shader => ∃ body, lexeme = Text.ofString shaderOpening ++ (body ++ Text.ofString shaderClosing)
  | .lineComment => ∃ body, lexeme = Text.ofString "--" ++ body
  | .blockComment => ∃ body, lexeme = Text.ofString "\x7b-" ++ (body ++ Text.ofString "-\x7d")
  | .eof => lexeme = []
  | kind => ∃ word, kind.mark? = some word ∧ lexeme = Text.ofString word

/-! ## Readers of whole tokens -/

/-- A block comment is closed and looks at nothing behind it. -/
theorem blockComment_takes (rest : Text) (taken : Nat)
    (read : blockComment (Text.ofString "\x7b-" ++ rest) = .ok taken) :
    ∃ body after, rest = body ++ (Text.ofString "-\x7d" ++ after) ∧ taken = body.length + 4 ∧
      ∀ other, blockComment (Text.ofString "\x7b-" ++ (body ++ (Text.ofString "-\x7d" ++ other))) =
      .ok taken := by
  have dropped : ∀ text : Text, (Text.ofString "\x7b-" ++ text).drop 2 = text := fun _ => rfl
  rw [blockComment, dropped] at read
  split at read
  · rename_i inner ended
    obtain rfl := Except.ok.inj read
    obtain ⟨body, after, rfl, rfl, always⟩ := blockCommentEnd_delimits 0 _ _ ended
    have two : (Text.ofString "-\x7d").length = 2 := rfl
    refine ⟨body, after, rfl, by omega, fun other => ?_⟩
    rw [blockComment, dropped, always other]
  · cases read

/-- A shader block is closed and looks at nothing behind it. -/
theorem shader_takes (rest : Text) (taken : Nat)
    (read : shader (Text.ofString shaderOpening ++ rest) = .ok taken) :
    ∃ body after, rest = body ++ (Text.ofString shaderClosing ++ after) ∧ taken = body.length + 8 ∧
      ∀ other, shader (Text.ofString shaderOpening ++
      (body ++ (Text.ofString shaderClosing ++ other))) = .ok taken := by
  have dropped : ∀ text : Text, (Text.ofString shaderOpening ++ text).drop 6 = text := fun _ => rfl
  rw [shader, dropped] at read
  split at read
  · rename_i inner ended
    obtain rfl := Except.ok.inj read
    obtain ⟨body, after, rfl, rfl, always⟩ := shaderEnd_delimits _ _ ended
    have two : (Text.ofString shaderClosing).length = 2 := rfl
    refine ⟨body, after, rfl, by omega, fun other => ?_⟩
    rw [shader, dropped, always other]
  · cases read

/-- What a text opens with, it opens with however it goes on. -/
theorem opensWith_of_front {opening : String} {text : Text} (opens : opensWith opening text = true)
    (rest : Text) : opensWith opening (text ++ rest) = true := by
  obtain ⟨inner, rfl⟩ := (opensWith_iff _ _).mp opens
  rw [List.append_assoc]
  exact opensWith_append opening _

/-- A string is closed and looks at nothing behind it but for a third quotation mark. -/
theorem string_takes (rest : Text) (taken : Nat) (read : string (.ofChar '"' :: rest) = .ok taken) :
    ∃ tail after, rest = tail ++ after ∧ taken = tail.length + 1 ∧
      Shape .string (.ofChar '"' :: tail) ∧ ∀ other, Boundary after other →
      string (.ofChar '"' :: (tail ++ other)) = .ok taken := by
  by_cases triple : opensWith tripleQuote (.ofChar '"' :: rest) = true
  · obtain ⟨inner, same⟩ := (opensWith_iff _ _).mp triple
    obtain rfl : rest = Text.ofString "\"\"" ++ inner := (List.cons.inj same).2
    rw [string, if_pos triple] at read
    obtain ⟨count, ended, rfl⟩ := after_eq_ok.mp read
    obtain ⟨body, after, rfl, rfl, always⟩ := blockStringEnd_delimits inner count ended
    refine ⟨Text.ofString "\"\"" ++ (body ++ Text.ofString tripleQuote), after, by simp, ?_,
      .inl ⟨body, rfl⟩, fun other _ => ?_⟩
    · simp only [List.length_append]
      have two : (Text.ofString "\"\"").length = 2 := rfl
      omega
    · have opens : opensWith tripleQuote (.ofChar '"' :: (Text.ofString "\"\"" ++
          (body ++ Text.ofString tripleQuote) ++ other)) = true := rfl
      have dropped : ((.ofChar '"' :: (Text.ofString "\"\"" ++
          (body ++ Text.ofString tripleQuote) ++ other)) : Text).drop 3 =
            body ++ (Text.ofString tripleQuote ++ other) := by
        change body ++ Text.ofString tripleQuote ++ other = _
        rw [List.append_assoc]
      rw [string, if_pos opens, dropped, always other]
      rfl
  · rw [string, if_neg triple] at read
    obtain ⟨count, ended, rfl⟩ := after_eq_ok.mp read
    obtain ⟨body, after, same, rfl, always⟩ := lineStringEnd_delimits rest count ended
    obtain rfl : rest = body ++ Text.ofString "\"" ++ after := by rw [same, List.append_assoc]
    refine ⟨body ++ Text.ofString "\"", after, rfl, ?_, .inr ⟨?_, body, rfl⟩,
      fun other boundary => ?_⟩
    · simp only [List.length_append]
      omega
    · by_contra opens
      exact triple (opensWith_of_front (by simpa using opens) after)
    · have single : ¬ opensWith tripleQuote (.ofChar '"' :: (body ++ Text.ofString "\"" ++ other)) =
          true :=
        fun opens => triple ((boundary.fades.append
            (.ofChar '"' :: (body ++ Text.ofString "\""))).opensWith (by decide) opens)
      rw [string, if_neg single]
      change (lineStringEnd (body ++ Text.ofString "\"" ++ other)).after 1 = _
      rw [List.append_assoc, always other]
      rfl

/-- What stands between the quotes of a character is told by its own units. -/
theorem characterBody_delimits : Delimits characterBody .ok [] := by
  intro text taken read
  cases text with
  | nil => simp [characterBody] at read
  | cons u rest =>
    by_cases newline : u = Text.newline
    · simp [characterBody, newline] at read
    · by_cases escapes : u = .ofChar '\\'
      · rw [characterBody, if_neg newline, if_pos escapes] at read
        obtain ⟨count, escaped, rfl⟩ := after_eq_ok.mp read
        obtain ⟨body, after, rfl, rfl, always⟩ := escape_delimits _ _ escaped
        refine ⟨u :: body, after, rfl, by simp only [List.length_cons]; omega, fun other => ?_⟩
        rw [List.cons_append, characterBody, if_neg newline, if_pos escapes, always other]
        rfl
      · rw [characterBody, if_neg newline, if_neg escapes] at read
        obtain rfl := Except.ok.inj read
        refine ⟨[u], rest, rfl, rfl, fun other => ?_⟩
        change characterBody (u :: other) = _
        rw [characterBody, if_neg newline, if_neg escapes]

/-- A character is closed and looks at nothing behind it. -/
theorem character_takes (rest : Text) (taken : Nat)
    (read : character (.ofChar '\'' :: rest) = .ok taken) :
    ∃ tail after, rest = tail ++ after ∧ taken = tail.length + 1 ∧
      Shape .char (.ofChar '\'' :: tail) ∧
      ∀ other, character (.ofChar '\'' :: (tail ++ other)) = .ok taken := by
  have dropped : ∀ text : Text, (CodeUnit.ofChar '\'' :: text).drop 1 = text := fun _ => rfl
  rw [character, dropped] at read
  split at read
  · cases read
  · rename_i count inside
    obtain ⟨inner, bodyRead, rfl⟩ := after_eq_ok.mp inside
    obtain ⟨body, behind, rfl, rfl, always⟩ := characterBody_delimits _ _ bodyRead
    simp only [List.nil_append, List.length_nil, Nat.add_zero] at *
    have past :
        ∀ other, (CodeUnit.ofChar '\'' :: (body ++ other)).drop (1 + body.length) = other := by
      intro other
      rw [← List.drop_drop, dropped, List.drop_left]
    rw [past] at read
    split at read
    · rename_i closes
      obtain rfl := Except.ok.inj read
      obtain ⟨after, rfl⟩ := List.head?_eq_some_iff.mp closes
      refine ⟨body ++ Text.ofString "'", after, by simp; rfl, ?_, ⟨body, rfl⟩, fun other => ?_⟩
      · have one : (Text.ofString "'").length = 1 := rfl
        simp only [List.length_append]
        omega
      · rw [List.append_assoc, character, dropped, always]
        simp only [Reading.after, past]
        exact if_pos rfl
    · cases read

/-! ## Operators -/

/-- A unit that goes on an operator: an operator character that does not begin a line comment. -/
def goesOnOperator (u : CodeUnit) (rest : Text) : Bool :=
  u.isOperator && !(u == .ofChar '-' && rest.head? == some (.ofChar '-'))

/-- The operator characters at the front of a text, one by one. -/
theorem operatorRun_cons (u : CodeUnit) (rest : Text) :
    operatorRun (u :: rest) = if goesOnOperator u rest = true then 1 + operatorRun rest else 0 :=
  rfl

/-- No operator goes on at a blank or at the end. -/
theorem operatorRun_blank {other : Text} (blank : ∀ v ∈ other.head?, isBlank v = true) :
    operatorRun other = 0 := by
  cases other with
  | nil => rfl
  | cons v tail =>
    have noOperator := blanks_lack CodeUnit.isOperator (by decide) v (blank v rfl)
    simp [operatorRun_cons, goesOnOperator, noOperator]

/-- A unit goes on an operator also before another text that has no dash in front where there was
none. -/
theorem goesOnOperator_of {u : CodeUnit} {rest other : Text} (goesOn : goesOnOperator u rest = true)
    (dash : other.head? = some (.ofChar '-') → rest.head? = some (.ofChar '-')) :
    goesOnOperator u other = true := by
  simp only [goesOnOperator, Bool.and_eq_true, Bool.not_eq_true', Bool.and_eq_false_iff,
    beq_eq_false_iff_ne] at *
  exact ⟨goesOn.1, goesOn.2.imp id fun noDash isDash => noDash (dash isDash)⟩

/-- Where an operator stops, it stops as well before whatever may stand there. -/
theorem operatorRun_stops {u : CodeUnit} {rest other : Text}
    (stops : ¬ goesOnOperator u rest = true) (boundary : Boundary (u :: rest) other) :
    operatorRun other = 0 := by
  by_cases isOperator : u.isOperator = true
  · have dashes : u = .ofChar '-' ∧ rest.head? = some (.ofChar '-') := by
      simpa [goesOnOperator, isOperator] using stops
    obtain ⟨rfl, second⟩ := dashes
    obtain ⟨tail, rfl⟩ := List.head?_eq_some_iff.mp second
    rcases boundary.dashes rfl with kept | blank
    · obtain ⟨later, rfl⟩ := (opensWith_iff _ _).mp kept
      rfl
    · exact operatorRun_blank blank
  · cases boundary.fades with
    | stops blank => exact operatorRun_blank blank
    | goesOn _ further => simp [operatorRun_cons, goesOnOperator, isOperator]

/-- A run of operator characters goes on in the same way whatever may stand behind it, and a dash at
its end is followed by none. -/
theorem operatorRun_takes (text : Text) :
    ∃ inside after, text = inside ++ after ∧ operatorRun text = inside.length ∧
      (inside.getLast? = some (.ofChar '-') → after.head? ≠ some (.ofChar '-')) ∧
      ∀ other, Boundary after other → operatorRun (inside ++ other) = inside.length := by
  induction text with
  | nil =>
    refine ⟨[], [], rfl, rfl, by simp, fun other boundary => ?_⟩
    cases boundary.fades with
    | stops blank => exact operatorRun_blank blank
  | cons u rest ih =>
    by_cases goesOn : goesOnOperator u rest = true
    · obtain ⟨inside, after, rfl, count, last, always⟩ := ih
      refine ⟨u :: inside, after, rfl, ?_, ?_, fun other boundary => ?_⟩
      · rw [operatorRun_cons, if_pos goesOn, count, List.length_cons, Nat.add_comm]
      · cases inside with
        | nil =>
          intro isDash
          simp_all [goesOnOperator]
        | cons v more => simpa using last
      · have stillGoesOn : goesOnOperator u (inside ++ other) = true := by
          apply goesOnOperator_of goesOn
          intro dash
          cases inside with
          | nil => exact (boundary.fades.head dash).resolve_left (by decide)
          | cons v more => exact dash
        rw [List.cons_append, operatorRun_cons, if_pos stillGoesOn, always other boundary,
          List.length_cons, Nat.add_comm]
    · refine ⟨[], u :: rest, rfl, by rw [operatorRun_cons, if_neg goesOn]; rfl, by simp,
        fun other boundary => ?_⟩
      exact operatorRun_stops goesOn boundary

/-- Before a blank or the end, an operator is a front part of what it was. -/
theorem operatorRun_front {inside rest other : Text}
    (reaches : inside.length ≤ operatorRun (inside ++ rest))
    (blank : ∀ v ∈ other.head?, isBlank v = true) :
    operatorRun (inside ++ other) = inside.length := by
  induction inside with
  | nil => exact operatorRun_blank blank
  | cons u more ih =>
    rw [List.cons_append, operatorRun_cons] at reaches
    by_cases goesOn : goesOnOperator u (more ++ rest) = true
    · rw [if_pos goesOn, List.length_cons] at reaches
      have stillGoesOn : goesOnOperator u (more ++ other) = true := by
        apply goesOnOperator_of goesOn
        intro dash
        cases more with
        | nil => exact absurd (blank _ dash) (by decide)
        | cons v further => exact dash
      rw [List.cons_append, operatorRun_cons, if_pos stillGoesOn, ih (by omega),
        List.length_cons, Nat.add_comm]
    · simp [goesOn] at reaches

/-- A minus sign at the end belongs to what comes next. -/
def GivesBackMinus (lexeme : Text) : Prop :=
  lexeme.getLast? = some (.ofChar '-') ∧
    splitBeforeMinus.any (fun word => Text.ofString word == lexeme.dropLast) = true

instance : DecidablePred GivesBackMinus := fun _ => inferInstanceAs (Decidable (_ ∧ _))

/-- Punctuation that gives back a minus sign does not end in one itself. -/
theorem not_givesBackMinus_of_splits {lexeme : Text}
    (splits : splitBeforeMinus.any (fun word => Text.ofString word == lexeme) = true) :
    ¬ GivesBackMinus lexeme := by
  obtain ⟨word, member, same⟩ := List.any_eq_true.mp splits
  obtain rfl := beq_iff_eq.mp same
  rintro ⟨last, -⟩
  simp only [splitBeforeMinus, List.mem_cons, List.not_mem_nil, or_false] at member
  rcases member with rfl | rfl | rfl | rfl <;> exact absurd last (by decide)

/-- The units of an operator, from the run of operator characters behind its first one. -/
theorem operator_eq {first : CodeUnit} {inside rest : Text}
      (count : operatorRun (inside ++ rest) = inside.length) :
    operator first (inside ++ rest) =
      if GivesBackMinus (first :: inside) then inside.length else inside.length + 1 := by
  simp only [operator, count, List.take_left, Nat.add_comm 1]
  rfl

/-- What gives back a minus sign has one at its end, and something behind its first unit. -/
theorem GivesBackMinus.tail {first : CodeUnit} {inside : Text}
    (givesBack : GivesBackMinus (first :: inside)) :
    ∃ init, inside = init ++ [.ofChar '-'] ∧
      splitBeforeMinus.any (fun word => Text.ofString word == first :: init) = true := by
  obtain ⟨isMinus, splits⟩ := givesBack
  rcases List.eq_nil_or_concat inside with rfl | ⟨init, u, rfl⟩
  · change splitBeforeMinus.any (fun word => Text.ofString word == []) = true at splits
    exact absurd splits (by decide)
  · have same : u = .ofChar '-' := by simpa [List.getLast?_cons] using isMinus
    subst same
    exact ⟨init, by simp, by simpa [List.dropLast_cons_of_ne_nil] using splits⟩

/-- An operator goes on in the same way whatever may stand behind it. -/
theorem operator_takes (first : CodeUnit) (rest : Text) :
    ∃ tail after, rest = tail ++ after ∧ operator first rest = tail.length + 1 ∧
      ∀ other, Boundary after other → operator first (tail ++ other) = tail.length + 1 := by
  obtain ⟨inside, after, rfl, count, last, always⟩ := operatorRun_takes rest
  by_cases givesBack : GivesBackMinus (first :: inside)
  · obtain ⟨init, rfl, splits⟩ := givesBack.tail
    have length : (init ++ [CodeUnit.ofChar '-']).length = init.length + 1 := by simp
    have behind : after.head? ≠ some (.ofChar '-') := last (by simp)
    refine ⟨init, .ofChar '-' ::
        after, by simp, by rw [operator_eq count, if_pos givesBack, length],
      fun other boundary => ?_⟩
    cases boundary.fades with
    | stops blank =>
      -- without the minus sign behind it, the punctuation is a token of its own
      have reaches : init.length ≤ operatorRun (init ++ (.ofChar '-' :: after)) := by
        rw [List.append_cons, count, length]
        omega
      rw [operator_eq (operatorRun_front reaches blank),
        if_neg (not_givesBackMinus_of_splits splits)]
    | @goesOn _ other _ further =>
      have innerBoundary : Boundary after other := ⟨further, fun opens => by
        obtain ⟨_, rfl⟩ := (opensWith_iff _ _).mp opens
        exact absurd rfl behind⟩
      rw [List.append_cons, operator_eq (always other innerBoundary), if_pos givesBack, length]
  · refine ⟨inside, after, rfl, ?_, fun other boundary => ?_⟩
    · rw [operator_eq count, if_neg givesBack]
    · rw [operator_eq (always other boundary), if_neg givesBack]

/-! ## The front of a text -/

/-- The text begins with a comment or a shader block. -/
def opensSpecial (text : Text) : Bool :=
  opensWith "--" text || opensWith "\x7b-" text || opensWith shaderOpening text

/-- A text that fades begins with a comment or a shader block only where it did before. -/
theorem Fades.opensSpecial {text other : Text} (fades : Fades text other)
    (special : Scan.opensSpecial other = true) : Scan.opensSpecial text = true := by
  simp only [Scan.opensSpecial, Bool.or_eq_true] at *
  exact special.imp (Or.imp (fades.opensWith (by decide)) (fades.opensWith (by decide)))
    (fades.opensWith (by decide))

/-- The kind of a name. -/
def nameKind (lexeme : Text) (first : CodeUnit) : TokenKind :=
  if isKeyword lexeme then .keyword
  else if isUpper first then .upperIdentifier
  else .lowerIdentifier

/-- A name has the shape of its kind. -/
theorem nameKind_shape {first : CodeUnit} (isStart : isNameStart first = true) (tail : Text) :
    Shape (nameKind (first :: tail) first) (first :: tail) := by
  unfold nameKind
  split
  · assumption
  · split
    · exact ⟨first, tail, rfl, by assumption⟩
    · exact ⟨first, tail, rfl, isStart, by simpa using ‹¬ isUpper first = true›⟩

/-- The front of a text that begins with neither comment nor shader block. -/
theorem front_plain {first : CodeUnit} {rest : Text}
      (plain : ¬ opensSpecial (first :: rest) = true) :
    front first rest =
      if isNameStart first then
        .ok (nameKind ((first :: rest).take (run isNamePart (first :: rest))) first,
          run isNamePart (first :: rest))
      else if first.isDigit then (number (first :: rest)).map (.number, ·)
      else if first == .ofChar '"' then (string (first :: rest)).map (.string, ·)
      else if first == .ofChar '\'' then (character (first :: rest)).map (.char, ·)
      else
        match punctuation.find? (fun entry => CodeUnit.ofChar entry.1 == first) with
        | some (_, kind) => .ok (kind, 1)
        | none =>
          if first.isOperator then
            .ok (TokenKind.ofOperator ((first :: rest).take (operator first rest)),
              operator first rest)
          else
            .error ⟨.unexpected first, 0⟩ := by
  simp only [opensSpecial, Bool.or_eq_true, not_or] at plain
  obtain ⟨⟨noLine, noBlock⟩, noShader⟩ := plain
  simp only [front, noLine, noBlock, noShader]
  rfl

/-- A punctuation mark has the shape of its kind. -/
theorem punctuation_shape {first : CodeUnit} {entry : Char × TokenKind}
    (found : punctuation.find? (fun entry => CodeUnit.ofChar entry.1 == first) = some entry) :
    Shape entry.2 [first] := by
  have same : CodeUnit.ofChar entry.1 = first := by simpa using List.find?_some found
  have member := List.mem_of_find?_eq_some found
  subst same
  simp only [punctuation, List.mem_cons, List.not_mem_nil, or_false] at member
  rcases member with rfl | rfl | rfl | rfl | rfl | rfl | rfl | rfl
  · exact ⟨"(", rfl, rfl⟩
  · exact ⟨")", rfl, rfl⟩
  · exact ⟨"\x7b", rfl, rfl⟩
  · exact ⟨"\x7d", rfl, rfl⟩
  · exact ⟨"[", rfl, rfl⟩
  · exact ⟨"]", rfl, rfl⟩
  · exact ⟨",", rfl, rfl⟩
  · exact .inr rfl

/-- An operator or reserved punctuation has the shape of its kind. -/
theorem ofOperator_shape (lexeme : Text) : Shape (TokenKind.ofOperator lexeme) lexeme := by
  cases found : reservedOperators.find? (fun entry => Text.ofString entry.1 == lexeme) with
  | none =>
    have kind : TokenKind.ofOperator lexeme = .operator := by simp [TokenKind.ofOperator, found]
    rw [kind]
    exact kind
  | some entry =>
    have kind : TokenKind.ofOperator lexeme = entry.2 := by simp [TokenKind.ofOperator, found]
    have same : Text.ofString entry.1 = lexeme := by simpa using List.find?_some found
    have member := List.mem_of_find?_eq_some found
    rw [kind, ← same]
    simp only [reservedOperators, List.mem_cons, List.not_mem_nil, or_false] at member
    rcases member with rfl | rfl | rfl | rfl | rfl | rfl | rfl
    · exact ⟨"=", rfl, rfl⟩
    · exact ⟨"|", rfl, rfl⟩
    · exact ⟨":", rfl, rfl⟩
    · exact ⟨".", rfl, rfl⟩
    · exact ⟨"..", rfl, rfl⟩
    · exact ⟨"->", rfl, rfl⟩
    · exact .inl rfl

/-- A reading with its kind. -/
theorem map_eq_ok {reading : Reading Nat} {kind found : TokenKind} {taken : Nat} :
    reading.map (kind, ·) = .ok (found, taken) ↔ found = kind ∧ reading = .ok taken := by
  cases reading with
  | error stop => simp [Except.map]
  | ok count => simp [Except.map, eq_comm]

/-- The units of a line comment end before the end of the line. -/
def isLineEnd (u : CodeUnit) : Bool := u == Text.newline || u == Text.carriageReturn

/-- What a token at the front of a text is: its tail lies in the text, its lexeme has the shape of
its kind, and it stays what it is whatever may stand behind it; behind a line comment that is the
end of a line. -/
structure FrontToken (first : CodeUnit) (tail after : Text) (kind : TokenKind) : Prop where
  /-- The lexeme has the shape of its kind. -/
  shape : Shape kind (first :: tail)
  /-- The token is read in the same way before whatever may stand behind it. -/
  stays : ∀ other, Boundary after other →
      (kind = .lineComment → ∀ u ∈ other.head?, isLineEnd u = true) →
      front first (tail ++ other) = .ok (kind, tail.length + 1)

/-- What a token takes of a text is its units. -/
theorem take_token (first : CodeUnit) (tail other : Text) :
    (first :: (tail ++ other)).take (tail.length + 1) = first :: tail := by
  rw [List.take_succ_cons, List.take_left]

/-- What a name takes. -/
theorem name_takes {first : CodeUnit} (isStart : isNameStart first = true) (rest : Text) :
    ∃ tail after, rest = tail ++ after ∧ run isNamePart (first :: rest) = tail.length + 1 ∧ ∀ other,
      Boundary after other → run isNamePart (first :: (tail ++ other)) = tail.length + 1 := by
  have isPart : isNamePart first = true := by simp [isNamePart, isStart]
  obtain ⟨tail, after, rfl, count, -, always⟩ := run_fades (blanks_lack isNamePart (by decide)) rest
  refine ⟨tail, after, rfl, ?_, fun other boundary => ?_⟩
  · rw [run_cons isPart, count]
  · rw [run_cons isPart, always other boundary.fades]

/-- The token at the front of a text that begins with neither comment nor shader block. -/
theorem front_takes_plain {first : CodeUnit} {rest : Text} {kind : TokenKind} {taken : Nat}
    (plain : ¬ opensSpecial (first :: rest) = true) (read : front first rest = .ok (kind, taken)) :
    ∃ tail after, rest = tail ++ after ∧ taken = tail.length + 1 ∧
      FrontToken first tail after kind := by
  have plainFront : ∀ tail after other, rest = tail ++ after → Boundary after other →
      ¬ opensSpecial (first :: (tail ++ other)) = true := by
    rintro tail after other rfl boundary special
    exact plain ((boundary.fades.append (first :: tail)).opensSpecial special)
  rw [front_plain plain] at read
  by_cases isStart : isNameStart first = true
  · rw [if_pos isStart] at read
    obtain ⟨tail, after, rfl, count, always⟩ := name_takes isStart rest
    rw [count, take_token] at read
    obtain ⟨rfl, rfl⟩ := Prod.mk.inj (Except.ok.inj read)
    refine ⟨tail, after, rfl, rfl, nameKind_shape isStart tail, fun other boundary _ => ?_⟩
    rw [front_plain (plainFront _ _ _ rfl boundary), if_pos isStart,
      always other boundary, take_token]
  rw [if_neg isStart] at read
  by_cases isDigit : first.isDigit = true
  · rw [if_pos isDigit] at read
    obtain ⟨rfl, inside⟩ := map_eq_ok.mp read
    obtain ⟨lexeme, after, same, rfl, shape, always⟩ := number_takes _ _ inside
    cases lexeme with
    | nil => exact absurd inside (number_ne_zero isDigit rest)
    | cons u tail =>
      obtain ⟨rfl, rfl⟩ := List.cons.inj same
      refine ⟨tail, after, rfl, rfl, ⟨shape, first, tail, rfl, isDigit⟩, fun other boundary _ => ?_⟩
      rw [front_plain (plainFront _ _ _ rfl boundary), if_neg isStart, if_pos isDigit,
        ← List.cons_append, always other boundary]
      rfl
  rw [if_neg isDigit] at read
  by_cases isString : (first == .ofChar '"') = true
  · rw [if_pos isString] at read
    obtain ⟨rfl, inside⟩ := map_eq_ok.mp read
    obtain rfl := beq_iff_eq.mp isString
    obtain ⟨tail, after, rfl, rfl, shape, always⟩ := string_takes _ _ inside
    refine ⟨tail, after, rfl, rfl, shape, fun other boundary _ => ?_⟩
    rw [front_plain (plainFront _ _ _ rfl boundary), if_neg isStart, if_neg isDigit,
      if_pos isString, always other boundary]
    rfl
  rw [if_neg isString] at read
  by_cases isCharacter : (first == .ofChar '\'') = true
  · rw [if_pos isCharacter] at read
    obtain ⟨rfl, inside⟩ := map_eq_ok.mp read
    obtain rfl := beq_iff_eq.mp isCharacter
    obtain ⟨tail, after, rfl, rfl, shape, always⟩ := character_takes _ _ inside
    refine ⟨tail, after, rfl, rfl, shape, fun other boundary _ => ?_⟩
    rw [front_plain (plainFront _ _ _ rfl boundary), if_neg isStart, if_neg isDigit,
      if_neg isString, if_pos isCharacter, always other]
    rfl
  rw [if_neg isCharacter] at read
  cases found : punctuation.find? (fun entry => CodeUnit.ofChar entry.1 == first) with
  | some entry =>
    rw [found] at read
    obtain ⟨rfl, rfl⟩ := Prod.mk.inj (Except.ok.inj read)
    refine ⟨[], rest, rfl, rfl, punctuation_shape found, fun other boundary _ => ?_⟩
    rw [front_plain (plainFront _ _ _ rfl boundary), if_neg isStart, if_neg isDigit,
      if_neg isString, if_neg isCharacter, found]
    rfl
  | none =>
    rw [found] at read
    simp only at read
    split at read
    · rename_i isOperator
      obtain ⟨tail, after, rfl, count, always⟩ := operator_takes first rest
      rw [count, take_token] at read
      obtain ⟨rfl, rfl⟩ := Prod.mk.inj (Except.ok.inj read)
      refine ⟨tail, after, rfl, rfl, ofOperator_shape _, fun other boundary _ => ?_⟩
      rw [front_plain (plainFront _ _ _ rfl boundary), if_neg isStart, if_neg isDigit,
        if_neg isString, if_neg isCharacter, found]
      simp only [isOperator, ↓reduceIte, always other boundary, take_token]
    · cases read

/-- A line comment at the front of a text reaches to the end of the line. -/
theorem front_takes_line (rest : Text) :
    ∃ tail after, .ofChar '-' :: rest = tail ++ after ∧
      front (.ofChar '-') (.ofChar '-' :: rest) = .ok (.lineComment, tail.length + 1) ∧
      FrontToken (.ofChar '-') tail after .lineComment := by
  let inLine : CodeUnit → Bool := fun u => u != Text.newline && u != Text.carriageReturn
  have dash : inLine (.ofChar '-') = true := by decide
  have taken : ∀ text, front (.ofChar '-') (.ofChar '-' :: text) =
        .ok (.lineComment, run inLine text + 2) := by
    intro text
    have opens : opensWith "--" (.ofChar '-' :: .ofChar '-' :: text) = true :=
      opensWith_append "--" text
    have count : lineComment (.ofChar '-' :: .ofChar '-' :: text) = run inLine text + 2 := by
      change run inLine (.ofChar '-' :: .ofChar '-' :: text) = _
      rw [run_cons dash, run_cons dash]
    rw [front, if_pos opens, count]
  obtain ⟨inside, after, rfl, count, all, -⟩ := run_split inLine rest
  refine ⟨.ofChar '-' :: inside, after, rfl, ?_, ⟨inside, rfl⟩, fun other _ lineEnd => ?_⟩
  · rw [taken, count]
    rfl
  · have stops : ∀ u ∈ other.head?, inLine u = false := by
      intro u first
      have ends := lineEnd rfl u first
      simp only [isLineEnd, Bool.or_eq_true, beq_iff_eq] at ends
      rcases ends with rfl | rfl <;> decide
    rw [List.cons_append, taken, run_append all stops]
    rfl

/-- A block comment at the front of a text reaches to its closing mark. -/
theorem front_takes_block {rest : Text} {kind : TokenKind} {taken : Nat}
    (read : front (.ofChar '{') (.ofChar '-' :: rest) = .ok (kind, taken)) :
    ∃ tail after, .ofChar '-' :: rest = tail ++ after ∧ taken = tail.length + 1 ∧
      FrontToken (.ofChar '{') tail after kind := by
  have special : ∀ text, front (.ofChar '{') (.ofChar '-' :: text) =
      (blockComment (Text.ofString "\x7b-" ++ text)).map (.blockComment, ·) := fun _ => rfl
  rw [special] at read
  obtain ⟨rfl, inside⟩ := map_eq_ok.mp read
  obtain ⟨body, after, rfl, rfl, always⟩ := blockComment_takes rest taken inside
  refine ⟨.ofChar '-' :: (body ++ Text.ofString "-\x7d"), after, by simp, by simp; rfl, ⟨body, rfl⟩,
    fun other _ _ => ?_⟩
  rw [List.cons_append, special, List.append_assoc, always other]
  simp only [Except.map, List.length_cons, List.length_append]
  rfl

/-- A shader block at the front of a text reaches to its closing mark. -/
theorem front_takes_shader {rest : Text} {kind : TokenKind} {taken : Nat}
    (read : front (.ofChar '[') (Text.ofString "glsl|" ++ rest) = .ok (kind, taken)) :
    ∃ tail after, Text.ofString "glsl|" ++ rest = tail ++ after ∧ taken = tail.length + 1 ∧
      FrontToken (.ofChar '[') tail after kind := by
  have special : ∀ text, front (.ofChar '[') (Text.ofString "glsl|" ++ text) =
      (shader (Text.ofString shaderOpening ++ text)).map (.shader, ·) := fun _ => rfl
  rw [special] at read
  obtain ⟨rfl, inside⟩ := map_eq_ok.mp read
  obtain ⟨body, after, rfl, rfl, always⟩ := shader_takes rest taken inside
  refine ⟨Text.ofString "glsl|" ++ (body ++ Text.ofString shaderClosing), after, by simp, ?_,
    ⟨body, rfl⟩, fun other _ _ => ?_⟩
  · simp only [List.length_append]
    have five : (Text.ofString "glsl|").length = 5 := rfl
    have two : (Text.ofString shaderClosing).length = 2 := rfl
    omega
  · rw [List.append_assoc, special, List.append_assoc, always other]
    simp only [Except.map, List.length_append]
    have five : (Text.ofString "glsl|").length = 5 := rfl
    have two : (Text.ofString shaderClosing).length = 2 := rfl
    rw [five, two]
    congr 2
    omega

/-- The token at the front of a text lies in the text, has the shape of its kind, and stays what it
is whatever may stand behind it. -/
theorem front_takes {first : CodeUnit} {rest : Text} {kind : TokenKind} {taken : Nat}
    (read : front first rest = .ok (kind, taken)) :
    ∃ tail after, rest = tail ++ after ∧ taken = tail.length + 1 ∧
      FrontToken first tail after kind := by
  by_cases isLine : opensWith "--" (first :: rest) = true
  · obtain ⟨inner, same⟩ := (opensWith_iff _ _).mp isLine
    obtain rfl : first = .ofChar '-' := (List.cons.inj same).1
    obtain rfl : rest = .ofChar '-' :: inner := (List.cons.inj same).2
    obtain ⟨tail, after, split, again, token⟩ := front_takes_line inner
    rw [again] at read
    obtain ⟨rfl, rfl⟩ := Prod.mk.inj (Except.ok.inj read)
    exact ⟨tail, after, split, rfl, token⟩
  by_cases isBlock : opensWith "\x7b-" (first :: rest) = true
  · obtain ⟨inner, same⟩ := (opensWith_iff _ _).mp isBlock
    obtain rfl : first = .ofChar '{' := (List.cons.inj same).1
    obtain rfl : rest = .ofChar '-' :: inner := (List.cons.inj same).2
    exact front_takes_block read
  by_cases isShader : opensWith shaderOpening (first :: rest) = true
  · obtain ⟨inner, same⟩ := (opensWith_iff _ _).mp isShader
    obtain rfl : first = .ofChar '[' := (List.cons.inj same).1
    obtain rfl : rest = Text.ofString "glsl|" ++ inner := (List.cons.inj same).2
    exact front_takes_shader read
  exact front_takes_plain (by simp [opensSpecial, isLine, isBlock, isShader]) read

end Scan

end Marginalia
