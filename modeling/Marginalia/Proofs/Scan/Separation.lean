import Marginalia.Proofs.Blanking.Tokens
import Marginalia.Proofs.Scan.Partition

/-!
# Separators

How much blank space stands between the tokens of a source does not matter: written one behind the
other with any blanks before, between and behind them, its lexemes are scanned as the same tokens
again. Only a line comment asks for more than some blank behind it, namely for one that ends the
line.
-/

namespace Marginalia

/-- What a token says wherever it stands. -/
def Token.wording (token : Token) : TokenKind × Text := (token.kind, token.lexeme)

/-- The lexemes of tokens one behind the other, each with its separator behind it, and a separator
before them all. -/
def Text.separated (lead : Text) (parts : List (Token × Text)) : Text :=
  lead ++ parts.flatMap fun (token, separator) => token.lexeme ++ separator

/-- Tokens are kept apart by the blanks before them and those behind each of them. -/
structure Separated (lead : Text) (parts : List (Token × Text)) : Prop where
  /-- There are only blanks before the tokens. -/
  lead : lead ⊆ Text.ofString " \t\n\r"
  /-- There are only blanks behind each token. -/
  blank : ∀ part ∈ parts, part.2 ⊆ Text.ofString " \t\n\r"
  /-- Between two tokens there are some. -/
  apart : ∀ part ∈ parts.dropLast, part.2 ≠ []
  /-- Behind a line comment the first of them ends the line. -/
  lines : ∀ part ∈ parts, part.1.kind = .lineComment → part.2.take 1 ⊆ Text.ofString "\n\r"

variable {lead separator : Text} {token : Token} {parts : List (Token × Text)}

namespace Separated

/-- What is behind a token are separated tokens again. -/
theorem behind (apart : Separated lead ((token, separator) :: parts)) :
    Separated separator parts where
  lead := apart.blank _ (.head _)
  blank part member := apart.blank part (.tail _ member)
  apart part member := by
    refine apart.apart part ?_
    cases parts with
    | nil => cases member
    | cons next further => exact .tail _ member
  lines part member := apart.lines part (.tail _ member)

/-- Behind a token there is its separator first, or nothing. -/
theorem head?_behind (apart : Separated lead ((token, separator) :: parts)) :
    (Text.separated separator parts).head? = separator.head? := by
  cases separator with
  | cons u further => rfl
  | nil =>
    cases parts with
    | nil => rfl
    | cons next further => exact absurd rfl (apart.apart (token, []) (.head _))

/-- The separated text of tokens begins with the first of them. -/
theorem text_cons (lead : Text) (token : Token) (separator : Text) (parts : List (Token × Text)) :
    Text.separated lead ((token, separator) :: parts) = lead ++
      (token.lexeme ++ Text.separated separator parts) := by
  simp [Text.separated]

end Separated

/-- A blank or the end behind a line comment ends its line. -/
theorem isLineEnd_of {u : CodeUnit} (ends : u ∈ Text.ofString "\n\r") :
    Scan.isLineEnd u = true := by
  have known : Text.ofString "\n\r" = [Text.newline, Text.carriageReturn] := by decide
  rw [known] at ends
  simpa [Scan.isLineEnd] using ends

/-- The lexemes of the tokens of a text divide into the same tokens wherever and however far apart
they are written. -/
theorem Scan.Divides.separated {position : Position} {text : Text} {tokens : List Token}
    (divides : Divides position text tokens) {other : Position}
    (same : parts.map Prod.fst = tokens.dropLast) (apart : Separated lead parts) :
    ∃ again, Divides other (Text.separated lead parts) again ∧
      again.map Token.wording = tokens.map Token.wording := by
  induction divides generalizing other lead parts with
  | done position =>
    obtain rfl : parts = [] := List.map_eq_nil_iff.mp same
    have areBlank (u : CodeUnit) (member : u ∈ lead) : isBlank u = true :=
      (isBlank_iff u).mpr (apart.lead member)
    exact ⟨_, .blanks areBlank (.done (other.advance lead)), rfl⟩
  | blank _ _ ih => exact ih same apart
  | @token position u tail rest kind tokens solid read further ih =>
    -- Behind the token stand others, the last of them being the end of the source.
    obtain ⟨inner, stop, closed, -⟩ := further.closed
    have some : tokens ≠ [] := by simp [closed]
    rw [List.dropLast_cons_of_ne_nil some] at same
    obtain ⟨⟨_, separator⟩, parts, rfl, rfl, following⟩ := List.map_eq_cons_iff.mp same
    obtain ⟨tail', after, split, length, front⟩ := front_takes read
    obtain ⟨rfl, rfl⟩ := List.append_inj split (by omega)
    have begins := apart.head?_behind
    have boundary : Boundary rest (Text.separated separator parts) := by
      refine .of_blank fun v first => (isBlank_iff v).mpr ?_
      exact apart.blank _ (.head _) (List.mem_of_mem_head? (begins ▸ first))
    have lineEnd (isLine : kind = .lineComment) (v : CodeUnit)
        (first : v ∈ (Text.separated separator parts).head?) : isLineEnd v = true := by
      have isFirst : v ∈ separator.take 1 := by
        rw [begins] at first
        cases separator with
        | nil => cases first
        | cons w further => exact List.mem_singleton.mpr (Option.some.inj first).symm
      exact isLineEnd_of (apart.lines _ (.head _) isLine isFirst)
    have again := front.stays (Text.separated separator parts) boundary lineEnd
    obtain ⟨found, behind, alike⟩ :=
      @ih separator parts ((other.advance lead).advance (u :: tail)) following apart.behind
    have areBlank (v : CodeUnit) (member : v ∈ lead) : isBlank v = true :=
      (isBlank_iff v).mpr (apart.lead member)
    rw [Separated.text_cons]
    refine ⟨_, .blanks areBlank (.token solid again behind), ?_⟩
    rw [List.map_cons, List.map_cons, alike]
    rfl

/-- A source that is scanned is scanned into tokens of the same kinds and lexemes if other
separators are chosen to stand before, between and behind the lexemes; the last token, the end of
the source, is none to be separated. -/
theorem scan_separated {source : Text} {tokens : List Token} (scan : Token.scan source = .ok tokens)
    (same : parts.map Prod.fst = tokens.dropLast) (apart : Separated lead parts) :
    ∃ again, Token.scan (Text.separated lead parts) = .ok again ∧
      again.map Token.wording = tokens.map Token.wording := by
  obtain ⟨again, divides, alike⟩ :=
    ((Scan.scan_eq_ok_iff source tokens).mp scan).separated same apart
  exact ⟨again, (Scan.scan_eq_ok_iff _ again).mpr divides, alike⟩

/-- Two numbers, two dots between them, and a comment, written close together or far apart, are the
same tokens. -/
theorem spread_range_scanned :
    ∃ parts : List (Token × Text), Separated "\n" parts ∧
      Text.separated "\n" parts = "\n1\t.. 2\r\n--c\r " ∧
      (∃ tokens, Token.scan "1..2--c" = .ok tokens ∧ parts.map Prod.fst = tokens.dropLast) ∧
      ∃ again, Token.scan "\n1\t.. 2\r\n--c\r " = .ok again ∧
      again.map Token.wording = ([(.number, "1"), (.range, ".."), (.number, "2"),
      (.lineComment, "--c"), (.eof, "")] : List (TokenKind × Text)) := by
  have scan : Token.scan "1..2--c" = .ok [⟨.number, "1", ⟨⟨0, 1, 1⟩, ⟨1, 1, 2⟩⟩⟩,
        ⟨.range, "..", ⟨⟨1, 1, 2⟩, ⟨3, 1, 4⟩⟩⟩, ⟨.number, "2", ⟨⟨3, 1, 4⟩, ⟨4, 1, 5⟩⟩⟩,
        ⟨.lineComment, "--c", ⟨⟨4, 1, 5⟩, ⟨7, 1, 8⟩⟩⟩, ⟨.eof, "", ⟨⟨7, 1, 8⟩, ⟨7, 1, 8⟩⟩⟩] := by
    decide +kernel
  have apart : Separated "\n" [(⟨.number, "1", ⟨⟨0, 1, 1⟩, ⟨1, 1, 2⟩⟩⟩, "\t"),
        (⟨.range, "..", ⟨⟨1, 1, 2⟩, ⟨3, 1, 4⟩⟩⟩, " "), (⟨.number, "2", ⟨⟨3, 1, 4⟩, ⟨4, 1, 5⟩⟩⟩,
        "\r\n"), (⟨.lineComment, "--c", ⟨⟨4, 1, 5⟩, ⟨7, 1, 8⟩⟩⟩, "\r ")] :=
    ⟨by decide +kernel, by decide +kernel, by decide +kernel, by decide +kernel⟩
  obtain ⟨again, scanned, alike⟩ := scan_separated scan rfl apart
  exact ⟨_, apart, rfl, ⟨_, scan, rfl⟩, again, scanned, alike⟩

end Marginalia
