import Marginalia.Diagnostic
import Marginalia.Proofs.Diagnosis.Place
import Marginalia.Proofs.Lines
import Marginalia.Proofs.Writing.Numeral

/-!
# Diagnostics point at the right place

What a user is shown about an error tells its place, and below that the line of the source there
with a caret under the place. Main statement: this holds of every error that a source gives rise to,
in its tokens, its grammar or its fixities, and a mismatch with the grammar is reported about a
token of the source.
-/

namespace Marginalia

variable {source path message : Text} {span : Span}

/-! ## What is shown -/

/-- There is no line break in a number. -/
theorem Text.newline_notMem_ofNat (n : Nat) : newline ∉ ofNat n := by
  intro member
  exact absurd ((digitPart_ofNat n).2 newline member) (by decide)

namespace Diagnostic

/-- What is shown first: the place of an error and its message. -/
def placed (path message : Text) (span : Span) : Text :=
  path ++ ":" ++ Text.ofNat span.start.line ++ ":" ++ Text.ofNat span.start.column ++
    ": error: " ++ message

/-- A caret behind some blanks. -/
def caretBehind (blanks : Nat) : Text := List.replicate blanks (CodeUnit.ofChar ' ') ++ "^"

/-- There is no line break before or in a caret. -/
theorem newline_notMem_caretBehind (blanks : Nat) : Text.newline ∉ caretBehind blanks := by
  have caret : Text.newline ∉ Text.ofString "^" := by decide
  have blank : Text.newline ≠ CodeUnit.ofChar ' ' := by decide
  simp [caretBehind, List.mem_replicate, blank, caret]

/-- The place and the message of an error are shown in a line, if there is no line break in the path
and in the message. -/
theorem lines_placed (inPath : Text.newline ∉ path) (inMessage : Text.newline ∉ message) :
    (placed path message span).lines = [placed path message span] := by
  have colon : Text.newline ∉ Text.ofString ":" := by decide
  have error : Text.newline ∉ Text.ofString ": error: " := by decide
  refine Text.split_of_notMem ?_
  simp [placed, inPath, inMessage, colon, error, Text.newline_notMem_ofNat]

/-- An error at a counted place is shown with the line of the source there, and below it with a
caret under the place. -/
theorem lines_render (counted : span.start.Counted source) (path message : Text) :
    ∃ above line below, source.LineAt span.start.offset above line below ∧
      (render path source (located message span)).lines = (placed path message span).lines ++
      [line, caretBehind (span.start.offset - above.length), []] := by
  obtain ⟨above, line, below, lineAt, number, column⟩ := counted.lineAt
  have shownLine : sourceLine source span.start.line = line := by
    rw [number, sourceLine, lineAt.getElem?_lines]
    rfl
  have caret : caretLine span.start.column = caretBehind (span.start.offset - above.length) ++
        [Text.newline] := by
    rw [column]
    rfl
  have whole : render path source (located message span) = placed path message span ++
        Text.newline :: (line ++ Text.newline ::
        (caretBehind (span.start.offset - above.length) ++ Text.newline :: [])) := by
    simp [render, shownLine, caret, Diagnostic.line, placed]
  refine ⟨above, line, below, lineAt, ?_⟩
  rw [whole, Text.lines, Text.split_append, Text.split_append, Text.split_append,
    Text.split_of_notMem lineAt.single, Text.split_of_notMem (newline_notMem_caretBehind _)]
  rfl

end Diagnostic

/-! ## Errors of a source -/

/-- The errors that a source gives rise to: in its tokens, in its grammar, in the fixities that the
module declares, and in grouping the chains of the module by any fixities. -/
inductive Raised (source : Text) : Diagnostic → Prop where
  | scan {error : ScanError} (fails : Token.scan source = .error error) :
      Raised source (.ofSourceError (.scan error))
  | parse {error : SourceError} (fails : Module.parse source = .error error) :
      Raised source (.ofSourceError error)
  | declared {module : Module} {error : FixityError} (read : Module.parse source = .ok module)
      (member : error ∈ module.declaredFixities.errors) : Raised source (.ofFixityError error)
  | grouped {module : Module} {registry : Registry} {error : FixityError}
      (read : Module.parse source = .ok module) (fails : module.resolve registry = .error error) :
      Raised source (.ofFixityError error)

/-- Every error of a source has a place there. -/
theorem Raised.located {diagnostic : Diagnostic} (raised : Raised source diagnostic) :
    ∃ message span, diagnostic = .located message span ∧ span.Counted source := by
  cases raised with
  | scan fails => exact ⟨_, _, rfl, Token.counted_of_scan fails⟩
  | parse fails =>
    rcases Module.parse_error fails with ⟨fault, scan, rfl⟩ |
      ⟨tokens, token, report, scan, member, rfl, about⟩
    · exact ⟨_, _, rfl, Token.counted_of_scan scan⟩
    · obtain ⟨start, stop⟩ :=
        ((Scan.scan_eq_ok_iff source tokens).mp scan).places [] rfl token member
      refine ⟨_, _, rfl, ?_⟩
      rw [about.span]
      exact ⟨start, stop⟩
  | declared read member => exact ⟨_, _, rfl, Module.counted_declared read member⟩
  | grouped read fails => exact ⟨_, _, rfl, Module.counted_resolve read fails⟩

/-- Diagnostics point at the right place. Every error of a source has a place there, told by
counting; what is shown of it are its place and its message, the line of the source there, and a
caret behind as many blanks as there are code units before the place in that line, the last two
being the second and the third line if there is no line break in path and message. A mismatch with
the grammar is at a token, and unless it is about a precedence its message ends with the kind and
the spelling of that token, or tells that it is the end of the input. -/
theorem diagnostics_point (source : Text) :
    (∀ diagnostic, Raised source diagnostic → ∃ message span, diagnostic = .located message span ∧
        span.Counted source ∧
      ∀ path, ∃ above line below, source.LineAt span.start.offset above line below ∧
        (diagnostic.render path source).lines = (Diagnostic.placed path message span).lines ++
          [line, Diagnostic.caretBehind (span.start.offset - above.length), []] ∧
        (Text.newline ∉ path → Text.newline ∉ message → (diagnostic.render path source).lines =
          [Diagnostic.placed path message span, line,
            Diagnostic.caretBehind (span.start.offset - above.length), []])) ∧
    (∀ error, Module.parse source = .error (.parse error) →
      ∃ tokens token, Token.scan source = .ok tokens ∧ token ∈ tokens ∧ error.span = token.span ∧
        (error = .invalidPrecedence token ∨
          (if token.kind = .eof then Text.ofString "end of input"
            else Text.ofString token.kind.name ++ " '" ++ token.lexeme ++
              "'") <:+ error.message)) := by
  constructor
  · intro diagnostic raised
    obtain ⟨message, span, rfl, counted⟩ := raised.located
    refine ⟨message, span, rfl, counted, fun path => ?_⟩
    obtain ⟨above, line, below, lineAt, lines⟩ := Diagnostic.lines_render counted.start path message
    refine ⟨above, line, below, lineAt, lines, fun inPath inMessage => ?_⟩
    rw [lines, Diagnostic.lines_placed inPath inMessage]
    rfl
  · intro error fails
    rcases Module.parse_error fails with ⟨_, _, isScan⟩ |
      ⟨tokens, token, report, scan, member, same, about⟩
    · cases isScan
    · obtain rfl := SourceError.parse.inj same
      refine ⟨tokens, token, scan, member, about.span, ?_⟩
      by_cases precedence : error = .invalidPrecedence token
      · exact .inl precedence
      · have named := about.describe_suffix precedence
        rw [ParseError.describe_eq] at named
        exact .inr named

/-- What fails with a changed value fails. -/
theorem error_of_map {α β ε : Type} {f : α → β} {result : Except ε α} {error : ε}
    (fails : result.map f = .error error) : result = .error error := by
  cases result with
  | ok value => cases fails
  | error other => exact congrArg Except.error (Except.error.inj fails)

/-- The report about a bracket in the wrong place. -/
def misplacedBracket : ParseError :=
  .unexpected ["a declaration starting at column 1"] ⟨.rightParen, ")", ⟨⟨8, 2, 3⟩, ⟨9, 2, 4⟩⟩⟩

/-- A bracket in the wrong place on the second line is reported there, with that line and a caret
below. -/
theorem misplaced_bracket_reported :
    Module.parse "x = a\n  )" = .error (.parse misplacedBracket) ∧
    (∃ above line below, Text.LineAt "x = a\n  )" 8 above line below ∧
      (Diagnostic.render "M.elm" "x = a\n  )" (.ofSourceError (.parse misplacedBracket))).lines =
      [Diagnostic.placed "M.elm" misplacedBracket.message misplacedBracket.span, line,
      Diagnostic.caretBehind (8 - above.length), []]) ∧
    ∃ tokens token, Token.scan "x = a\n  )" = .ok tokens ∧ token ∈ tokens ∧
      misplacedBracket.span = token.span := by
  obtain ⟨shown, reported⟩ := diagnostics_point "x = a\n  )"
  have fails := error_of_map
    (show (Module.parse "x = a\n  )").map (fun _ => ()) = .error (.parse misplacedBracket) by
    decide +kernel)
  obtain ⟨message, span, located, -, lines⟩ := shown _ (.parse fails)
  obtain ⟨rfl, rfl⟩ := Diagnostic.located.inj located
  obtain ⟨above, line, below, lineAt, -, three⟩ := lines "M.elm"
  obtain ⟨tokens, token, scan, member, same, -⟩ := reported misplacedBracket fails
  exact ⟨fails, ⟨above, line, below, lineAt, three (by decide +kernel) (by decide +kernel)⟩, tokens,
    token, scan, member, same⟩

/-- Where a token has a line break in it, so has the message that names it: the second line shown is
not the line of the source. -/
theorem broken_token_breaks_message :
    ∃ message span, Raised "module \"\"\"a\nb\"\"\"" (.located message span) ∧
      ∀ above line below, Text.LineAt "module \"\"\"a\nb\"\"\"" span.start.offset above line below →
      (Diagnostic.render "M.elm" "module \"\"\"a\nb\"\"\"" (.located message span)).lines[1]? ≠
      some line := by
  have fails := error_of_map (show (Module.parse "module \"\"\"a\nb\"\"\"").map (fun _ => ()) =
      .error (.parse (.unexpected ["an upper-case name"] ⟨.string, "\"\"\"a\nb\"\"\"",
    ⟨⟨7, 1, 8⟩, ⟨16, 2, 5⟩⟩⟩)) by decide +kernel)
  refine ⟨_, _, .parse fails, fun above line below lineAt => ?_⟩
  have early : above.length ≤ 7 := lineAt.above_le
  have above7 : List.take 7 (Text.ofString "module \"\"\"a\nb\"\"\"") = above ++
        (line ++ below).take (7 - above.length) := by
    rw [lineAt.split, List.take_append, List.take_of_length_le early]
  have single : Text.newline ∉ above := fun member => by
    have inFront := above7 ▸ List.mem_append_left _ member
    exact absurd inFront (by decide +kernel)
  have first := lineAt.getElem?_lines
  rw [List.count_eq_zero.mpr single] at first
  rw [← first]
  decide +kernel

end Marginalia
