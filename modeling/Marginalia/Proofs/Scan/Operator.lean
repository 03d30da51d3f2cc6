import Marginalia.Proofs.Scan.Arrival
import Marginalia.Proofs.Scan.Partition
import Marginalia.Proofs.Writing.Piece

/-!
# Operators are as long as they can be

A token of operator characters goes on for as long as such characters follow. It ends earlier in two
cases only: before two dashes, which begin a line comment, and before a minus sign that belongs to
what comes next. Its spelling alone tells whether it is punctuation.
-/

namespace Marginalia

/-- The spellings of operator characters that are punctuation, and the kind of each. -/
def punctuationSpellings : List (TokenKind × String) :=
  [(.equals, "="), (.pipe, "|"), (.colon, ":"), (.dot, "."), (.range, ".."), (.arrow, "->"),
    (.backslash, "\\")]

/-- The token is made of operator characters and is no comment. -/
structure Token.Symbolic (token : Token) : Prop where
  /-- The token is no comment. -/
  noComment : token.isComment = false
  /-- Its units are operator characters. -/
  units : ∀ u ∈ token.lexeme, u ∈ Text.ofChars operatorCharacters

/-- The token of a source ends where no further operator character can belong to it, and its
spelling tells its kind. -/
structure Token.Maximal (source : Text) (tokens : List Token) (token : Token) : Prop where
  /-- No two dashes stand in it. -/
  noDashes : ¬ Text.ofString "--" <:+: token.lexeme
  /-- Directly behind it stands no operator character, but for two dashes, or a minus sign that is a
  token by itself behind one of four spellings. -/
  ends : ∀ u ∈ (source.drop token.span.stop.offset).head?, u ∈ Text.ofChars operatorCharacters →
    Text.ofString "--" <+: source.drop token.span.stop.offset ∨
      (∃ word ∈ ["=", "->", ":", ".."], token.lexeme = Text.ofString word) ∧
        ∃ minus ∈ tokens, minus.span.start = token.span.stop ∧ minus.lexeme = Text.ofString "-"
  /-- It does not keep a minus sign that it has to leave over. -/
  leaves : ∀ word ∈ ["=-", "->-", ":-", "..-"], token.lexeme ≠ Text.ofString word
  /-- It is punctuation of some kind exactly if it is spelled so. -/
  spelled : ∀ entry ∈ punctuationSpellings, token.kind = entry.1 ↔
      token.lexeme = Text.ofString entry.2
  /-- It is an operator exactly if it is no punctuation and not the end of the source. -/
  isOperator : token.kind = .operator ↔
    token.lexeme ≠ [] ∧ ∀ entry ∈ punctuationSpellings, token.lexeme ≠ Text.ofString entry.2

namespace Scan

variable {u : CodeUnit} {tail rest : Text} {kind : TokenKind}

/-- No two dashes stand in a run of operator characters. -/
theorem noDashes_of_operatorRun {inside after : Text}
    (reaches : operatorRun (inside ++ after) = inside.length) :
    ¬ Text.ofString "--" <:+: inside := by
  induction inside with
  | nil => decide
  | cons u more ih =>
    rw [List.cons_append, operatorRun_cons] at reaches
    by_cases goesOn : goesOnOperator u (more ++ after) = true
    · rw [if_pos goesOn, List.length_cons] at reaches
      rw [List.infix_cons_iff]
      rintro (⟨rest, opens⟩ | inMore)
      · obtain ⟨rfl, behind⟩ := List.cons.inj opens
        obtain rfl : more = .ofChar '-' :: rest := behind.symm
        cases goesOn
      · exact ih (by omega) inMore
    · rw [if_neg goesOn] at reaches
      cases reaches

/-- Behind a run of operator characters stands none, or a line comment. -/
theorem stops_of_operatorRun {inside after : Text}
    (reaches : operatorRun (inside ++ after) = inside.length) (first : u ∈ after.head?)
    (isOperator : u.isOperator = true) : Text.ofString "--" <+: after := by
  induction inside with
  | nil =>
    obtain ⟨rest, rfl⟩ := List.head?_eq_some_iff.mp first
    by_contra noComment
    have goesOn : goesOnOperator u rest = true := by
      rw [goesOnOperator, isOperator, Bool.true_and, Bool.not_eq_true', Bool.and_eq_false_iff]
      by_contra dashes
      simp only [not_or, Bool.not_eq_false, beq_iff_eq] at dashes
      obtain ⟨rfl, second⟩ := dashes
      obtain ⟨more, rfl⟩ := List.head?_eq_some_iff.mp second
      exact noComment ⟨more, rfl⟩
    rw [List.nil_append, operatorRun_cons, if_pos goesOn, List.length_nil] at reaches
    omega
  | cons v more ih =>
    rw [List.cons_append, operatorRun_cons] at reaches
    split at reaches
    · rw [List.length_cons] at reaches
      exact ih (by omega)
    · cases reaches

/-- The kind of a spelling is that of the punctuation it spells. -/
theorem ofOperator_eq_iff (lexeme : Text) : ∀ entry ∈ punctuationSpellings,
    TokenKind.ofOperator lexeme = entry.1 ↔ lexeme = Text.ofString entry.2 := by
  cases found : reservedOperators.find? (fun entry => Text.ofString entry.1 == lexeme) with
  | none =>
    have kind : TokenKind.ofOperator lexeme = .operator := by simp [TokenKind.ofOperator, found]
    have isReserved : ∀ entry ∈ punctuationSpellings, (entry.2, entry.1) ∈ reservedOperators ∧
          entry.1 ≠ .operator := by decide
    rw [List.find?_eq_none] at found
    intro entry member
    obtain ⟨reserved, other⟩ := isReserved entry member
    rw [kind]
    refine ⟨fun same => absurd same.symm other, fun same => absurd ?_ (found _ reserved)⟩
    exact beq_iff_eq.mpr same.symm
  | some reserved =>
    have kind : TokenKind.ofOperator lexeme = reserved.2 := by simp [TokenKind.ofOperator, found]
    have same : Text.ofString reserved.1 = lexeme := by simpa using List.find?_some found
    have told : ∀ reserved ∈ reservedOperators, ∀ entry ∈ punctuationSpellings,
        (reserved.2 = entry.1 ↔ Text.ofString reserved.1 = Text.ofString entry.2) := by decide
    rw [kind, ← same]
    exact told reserved (List.mem_of_find?_eq_some found)

/-- A spelling that is no punctuation is an operator. -/
theorem ofOperator_eq_operator_iff (lexeme : Text) : TokenKind.ofOperator lexeme = .operator ↔
    ∀ entry ∈ punctuationSpellings, lexeme ≠ Text.ofString entry.2 := by
  have isPunctuation : ∀ kind ∈ reservedOperators.map (·.2), ∃ entry ∈ punctuationSpellings,
        entry.1 = kind := by decide
  have notOperator : ∀ entry ∈ punctuationSpellings, entry.1 ≠ .operator := by decide
  constructor
  · intro isOperator entry member same
    exact notOperator entry member ((ofOperator_eq_iff lexeme entry member).mpr same ▸ isOperator)
  · intro other
    cases found : reservedOperators.find? (fun entry => Text.ofString entry.1 == lexeme) with
    | none => simp [TokenKind.ofOperator, found]
    | some reserved =>
      have kind : TokenKind.ofOperator lexeme = reserved.2 := by simp [TokenKind.ofOperator, found]
      obtain ⟨entry, member, same⟩ :=
        isPunctuation _ (List.mem_map_of_mem (List.mem_of_find?_eq_some found))
      exact absurd ((ofOperator_eq_iff lexeme entry member).mp (kind.trans same.symm))
        (other entry member)

/-- What is known of a token that begins with an operator character and of the text behind it: no
two dashes stand in it, and either it is as long as the run of such characters, or a minus sign is
left over that stands alone. -/
structure Munched (u : CodeUnit) (tail rest : Text) (kind : TokenKind) : Prop where
  /-- The spelling tells the kind. -/
  kind_eq : kind = TokenKind.ofOperator (u :: tail)
  /-- No two dashes stand in it. -/
  noDashes : ¬ Text.ofString "--" <:+: u :: tail
  /-- It keeps its minus sign if it has one. -/
  keeps : ¬ GivesBackMinus (u :: tail)
  /-- It ends where no operator character follows, or a minus sign is left over. -/
  ends : (∀ v ∈ rest.head?, v.isOperator = true → Text.ofString "--" <+: rest) ∨
    splitBeforeMinus.any (fun word => Text.ofString word == u :: tail) = true ∧
      ∃ after, rest = .ofChar '-' :: after ∧ ∀ v ∈ after.head?, v.isOperator = false

/-- A token that begins with an operator character and is no comment is as long as it can be. -/
theorem munched_of_front (isOperator : u.isOperator = true) (notLine : kind ≠ .lineComment)
    (read : front u (tail ++ rest) = .ok (kind, tail.length + 1)) : Munched u tail rest kind := by
  have noComment : opensWith "--" (u :: (tail ++ rest)) = false := by
    by_contra opens
    rw [front_dashes (by simpa using opens)] at read
    exact notLine (Prod.mk.inj (Except.ok.inj read)).1.symm
  rw [front_operator isOperator noComment] at read
  obtain ⟨sameKind, count⟩ := Prod.mk.inj (Except.ok.inj read)
  rw [count, take_token] at sameKind
  obtain ⟨inside, after, split, reaches, last, -⟩ := operatorRun_takes (tail ++ rest)
  rw [split] at reaches
  have exactly := @operator_eq u _ _ reaches
  rw [← split, count] at exactly
  -- two dashes in front would begin a comment, and others would end the run
  have noDashes : ¬ Text.ofString "--" <:+: u :: inside := by
    rw [List.infix_cons_iff]
    rintro (⟨more, opens⟩ | inInside)
    · have whole : u :: (tail ++ rest) = Text.ofString "--" ++ (more ++ after) := by
        rw [split, ← List.cons_append, ← opens, List.append_assoc]
      rw [whole, opensWith_append] at noComment
      cases noComment
    · exact noDashes_of_operatorRun reaches inInside
  by_cases givesBack : GivesBackMinus (u :: inside)
  · obtain ⟨init, rfl, splits⟩ := givesBack.tail
    rw [if_pos givesBack, List.length_append, List.length_singleton] at exactly
    rw [List.append_assoc] at split
    obtain ⟨rfl, rfl⟩ := List.append_inj split (by omega)
    refine ⟨sameKind.symm, fun inTail => noDashes (inTail.trans ⟨[], [.ofChar '-'], by simp⟩),
      not_givesBackMinus_of_splits splits, .inr ⟨splits, after, rfl, fun v first => ?_⟩⟩
    by_contra further
    rw [Bool.not_eq_false] at further
    obtain ⟨more, opens⟩ := stops_of_operatorRun reaches first further
    exact last (by simp) (by rw [← opens]; rfl)
  · rw [if_neg givesBack] at exactly
    obtain ⟨rfl, rfl⟩ := List.append_inj split (by omega)
    exact ⟨sameKind.symm, noDashes, givesBack, .inl fun v first further =>
        stops_of_operatorRun reaches first further⟩

/-- A minus sign behind which no operator character stands is a token by itself. -/
theorem front_minus_alone {after : Text} (alone : ∀ v ∈ after.head?, v.isOperator = false) :
    front (.ofChar '-') after = .ok (.operator, 1) := by
  have noComment : opensWith "--" (.ofChar '-' :: after) = false := by
    by_contra opens
    obtain ⟨more, same⟩ := (opensWith_iff _ _).mp (by simpa using opens)
    obtain rfl := (List.cons.inj same).2
    exact absurd (alone (.ofChar '-') rfl) (by decide)
  have none : operatorRun after = 0 :=
    operatorRun_append (show operatorRun [] = [].length from rfl) alone
  have one : operator (.ofChar '-') after = 1 := @operator_eq (.ofChar '-') [] after none
  rw [front_operator (by decide) noComment, one]
  rfl

/-- A text that begins with a minus sign that is a token by itself divides into it and what
follows. -/
theorem Divides.minus_first {position : Position} {after : Text} {found : List Token}
    (divides : Divides position (.ofChar '-' :: after) found)
    (alone : ∀ v ∈ after.head?, v.isOperator = false) :
    ∃ minus ∈ found, minus.span.start = position ∧ minus.lexeme = Text.ofString "-" := by
  generalize text : CodeUnit.ofChar '-' :: after = whole at divides
  cases divides with
  | done => cases text
  | blank blank _ =>
    obtain ⟨rfl, -⟩ := List.cons.inj text
    exact absurd blank (by decide)
  | @token _ u tail rest kind tokens solid read further =>
    obtain ⟨rfl, rfl⟩ := List.cons.inj text
    rw [front_minus_alone alone] at read
    obtain ⟨-, one⟩ := Prod.mk.inj (Except.ok.inj read)
    obtain rfl : tail = [] := List.eq_nil_of_length_eq_zero (by omega)
    exact ⟨_, .head _, rfl, rfl⟩

end Scan

/-- The operator characters are those that are listed. -/
theorem CodeUnit.isOperator_iff (u : CodeUnit) :
    u.isOperator = true ↔ u ∈ Text.ofChars operatorCharacters := by
  have units : Text.ofChars operatorCharacters = operatorCharacters.map CodeUnit.ofChar := by decide
  simp [units, isOperator]

/-- The end of a source is maximal, since nothing stands behind it. -/
theorem Token.maximal_of_eof {source : Text} {tokens : List Token}
    (scan : Token.scan source = .ok tokens) {token : Token} (member : token ∈ tokens)
    (isEnd : token.kind = .eof) : token.Maximal source tokens := by
  have divides := (Scan.scan_eq_ok_iff source tokens).mp scan
  obtain ⟨inner, rfl, others⟩ := divides.closes
  have last :
      token = ⟨.eof, [], ⟨Position.start.advance source, Position.start.advance source⟩⟩ := by
    rcases List.mem_append.mp member with inInner | isLast
    · exact absurd isEnd (others token inInner).1
    · exact List.mem_singleton.mp isLast
  subst last
  have behind : source.drop (Position.start.advance source).offset = [] := by
    rw [Position.offset_advance]
    exact List.drop_eq_nil_of_le (Nat.le_add_left _ _)
  refine ⟨?_, fun u first => ?_, ?_, ?_, ?_⟩
  · show ¬ Text.ofString "--" <:+: []
    decide
  · rw [behind] at first
    cases first
  · show ∀ word ∈ ["=-", "->-", ":-", "..-"], [] ≠ Text.ofString word
    decide
  · show ∀ entry ∈ punctuationSpellings, TokenKind.eof = entry.1 ↔ [] = Text.ofString entry.2
    decide
  · exact iff_of_false (by simp) fun some => some.1 rfl

/-- Every token of operator characters is as long as it can be, and its spelling tells its kind. -/
theorem symbols_are_maximal {source : Text} {tokens : List Token}
    (scan : Token.scan source = .ok tokens) {token : Token} (member : token ∈ tokens)
    (symbolic : token.Symbolic) : token.Maximal source tokens := by
  by_cases isEnd : token.kind = .eof
  · exact Token.maximal_of_eof scan member isEnd
  obtain ⟨before, after, split⟩ := List.append_of_mem member
  obtain ⟨place, u, tail, rest, arrives, solid, read, spelled, further⟩ :=
    ((Scan.scan_eq_ok_iff source tokens).mp scan).arrives .start split isEnd
  have lexeme : token.lexeme = u :: tail := by rw [spelled]
  have stop : token.span.stop = place.advance (u :: tail) := by rw [spelled]
  have notLine : token.kind ≠ .lineComment := by
    intro isLine
    have noComment := symbolic.noComment
    rw [Token.isComment, isLine] at noComment
    cases noComment
  have first : u.isOperator = true :=
    (CodeUnit.isOperator_iff u).mpr (symbolic.units u (lexeme ▸ .head _))
  have munched := Scan.munched_of_front first notLine read
  have rest_eq : source.drop token.span.stop.offset = rest := by
    rw [stop]
    exact (Scan.Arrives.token solid read arrives).text_eq.symm
  refine ⟨lexeme ▸ munched.noDashes, fun v next isOperator => ?_,
    fun word member same => ?_, ?_, ?_⟩
  · rw [rest_eq] at next ⊢
    rcases munched.ends with stops | ⟨splits, after, rfl, alone⟩
    · exact .inl (stops v next ((CodeUnit.isOperator_iff v).mpr isOperator))
    · obtain ⟨word, isWord, same⟩ := List.any_eq_true.mp splits
      obtain ⟨minus, inAfter, starts, isMinus⟩ := further.minus_first alone
      refine .inr ⟨⟨word, isWord, lexeme.trans (beq_iff_eq.mp same).symm⟩, minus, ?_,
        starts.trans stop.symm, isMinus⟩
      rw [split]
      exact List.mem_append_right _ (.tail _ inAfter)
  · have givesBack : ∀ word ∈ ["=-", "->-", ":-", "..-"],
        Scan.GivesBackMinus (Text.ofString word) := by decide
    exact munched.keeps (lexeme ▸ same ▸ givesBack word member)
  · rw [lexeme, munched.kind_eq]
    exact Scan.ofOperator_eq_iff _
  · rw [lexeme, munched.kind_eq, Scan.ofOperator_eq_operator_iff]
    exact ⟨fun other => ⟨List.cons_ne_nil _ _, other⟩, And.right⟩

/-- An equals sign leaves the minus sign behind it over, and is as long as it can be. -/
theorem equals_before_minus_is_maximal :
    ∃ tokens, Token.scan "x=-1+>--c" = .ok tokens ∧ ∃ equals ∈ tokens,
      equals.lexeme = Text.ofString "=" ∧ equals.Symbolic ∧ equals.Maximal "x=-1+>--c" tokens := by
  have scan : Token.scan "x=-1+>--c" = .ok [
      ⟨.lowerIdentifier, "x", ⟨⟨0, 1, 1⟩, ⟨1, 1, 2⟩⟩⟩, ⟨.equals, "=", ⟨⟨1, 1, 2⟩, ⟨2, 1, 3⟩⟩⟩,
      ⟨.operator, "-", ⟨⟨2, 1, 3⟩, ⟨3, 1, 4⟩⟩⟩, ⟨.number, "1", ⟨⟨3, 1, 4⟩, ⟨4, 1, 5⟩⟩⟩,
      ⟨.operator, "+>", ⟨⟨4, 1, 5⟩, ⟨6, 1, 7⟩⟩⟩, ⟨.lineComment, "--c", ⟨⟨6, 1, 7⟩, ⟨9, 1, 10⟩⟩⟩,
      ⟨.eof, "", ⟨⟨9, 1, 10⟩, ⟨9, 1, 10⟩⟩⟩] := by decide +kernel
  have symbolic : Token.Symbolic ⟨.equals, "=", ⟨⟨1, 1, 2⟩, ⟨2, 1, 3⟩⟩⟩ :=
    ⟨rfl, List.forall_mem_singleton.mpr (by decide)⟩
  exact ⟨_, scan, _, .tail _ (.head _), rfl, symbolic,
    symbols_are_maximal scan (.tail _ (.head _)) symbolic⟩

end Marginalia
