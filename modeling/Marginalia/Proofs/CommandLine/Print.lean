import Marginalia.Collation
import Marginalia.CommandLine.Run
import Marginalia.Proofs.Json.Compact
import Marginalia.Proofs.Json.Module
import Marginalia.Proofs.Members
import Marginalia.Proofs.Spelling.Source

/-!
# Printing tokens and trees

What is printed can be read back, whatever the indent. Main statement: printed tokens are read back
as they were, and modules without floating-point numbers that are printed alike up to insignificant
blanks are the same.
-/

namespace Marginalia

namespace Json

/-! ## Reading members -/

/-- An object without members has none. -/
@[simp]
theorem member?_fields_nil (key : Text) : (fields []).member? key = none := rfl

/-- The member under a key is the last one that is written with it. -/
@[simp]
theorem member?_fields_cons (key wanted : String) (value : Json) (members : List (String × Json)) :
    (fields ((key, value) :: members)).member? (Text.ofString wanted) = ((fields members).member?
      (Text.ofString wanted)).or (if key = wanted then some value else none) := by
  have split := Keyed.last?_append [(Text.ofString key, value)]
    (members.map fun member => (Text.ofString member.1, member.2)) (Text.ofString wanted)
  have alone : Keyed.last? [(Text.ofString key, value)] (Text.ofString wanted) =
      if key = wanted then some value else none := by
    by_cases same : key = wanted <;> simp [Keyed.last?, Keyed.get?, Text.ofString_inj, same]
  rw [alone] at split
  exact split

/-- The number that a value is. -/
def natural? : Json → Option Nat
  | natural value => some value
  | _ => none

/-- The text that a value is. -/
def string? : Json → Option Text
  | string value => some value
  | _ => none

/-- The kind of tokens that a value names. -/
def tokenKind? (value : Json) : Option TokenKind := do
  let name ← value.string?
  TokenKind.all.find? fun kind => Text.ofString kind.name == name

/-- The position that a value has the counts of. -/
def position? (value : Json) : Option Position := do
  let offset ← value.member? "offset" >>= natural?
  let line ← value.member? "line" >>= natural?
  let column ← value.member? "column" >>= natural?
  return ⟨offset, line, column⟩

/-- The span that a value has the ends of. -/
def span? (value : Json) : Option Span := do
  let start ← value.member? "start" >>= position?
  let stop ← value.member? "end" >>= position?
  return ⟨start, stop⟩

/-- The token that a value has the kind, the lexeme and the span of. -/
def token? (value : Json) : Option Token := do
  let kind ← value.member? "kind" >>= tokenKind?
  let lexeme ← value.member? "lexeme" >>= string?
  let span ← value.member? "span" >>= span?
  return ⟨kind, lexeme, span⟩

/-- The tokens that the elements of a list are. -/
def tokens? : Json → Option (List Token)
  | array elements => elements.mapM token?
  | _ => none

/-- A kind of tokens is found by its name. -/
theorem tokenKind?_name (kind : TokenKind) : tokenKind? (text kind.name) = some kind := by
  have byName (other : TokenKind) :
      (Text.ofString other.name == Text.ofString kind.name) = (other.name == kind.name) := by
    rw [Bool.eq_iff_iff, beq_iff_eq, beq_iff_eq, Text.ofString_inj]
  have found : TokenKind.ofName? kind.name = some kind := by cases kind <;> rfl
  simpa only [tokenKind?, text, string?, Option.bind_eq_bind, Option.bind_some, byName,
    TokenKind.ofName?] using found

/-- A printed position has the counts of the position. -/
theorem position?_printedPosition (position : Position) :
    position? (printedPosition position) = some position := by
  simp [position?, printedPosition, natural?]

/-- A printed span has the ends of the span. -/
theorem span?_printed (span : Span) : span? (printed.span span) = some span := by
  simp [span?, printed, position?_printedPosition]

/-- A printed token is read back. -/
theorem token?_printed (token : Token) : token? (printed.token token) = some token := by
  simp [token?, Style.token, string?, tokenKind?_name, span?_printed]

/-- Printed tokens are read back. -/
theorem tokens?_printed (tokens : List Token) :
    tokens? (.array (tokens.map printed.token)) = some tokens := by
  have read (token : Token) : (token? ∘ printed.token) token = some token := token?_printed token
  rw [tokens?, List.mapM_map, funext read]
  induction tokens with
  | nil => rfl
  | cons token tokens ih => rw [List.mapM_cons, ih]; rfl

end Json

namespace CommandLine

/-- What is written to the standard output to print a value, for what was given as the indent. -/
def output (pretty : Text) (value : Json) : Text := Diagnostic.line (value.render (indentOf pretty))

/-- The line break behind a printed value is blank. -/
theorem isBlank_newline : ∀ u ∈ [Text.newline], Json.Reader.isBlank u = true :=
  List.forall_mem_singleton.mpr rfl

/-- Tokens are exact. -/
theorem exact_token (token : Token) : (Json.printed.token token).Exact := by
  simp [Json.Style.token, (Json.faithful_span _).exact]

/-- Printed tokens are read back as they were, whatever the indent. -/
theorem read?_output_tokens (tokens : List Token) (pretty : Text) :
    (Json.read? (output pretty (.array (tokens.map Json.printed.token)))).bind Json.tokens? =
      some tokens := by
  have exact : (Json.array (tokens.map Json.printed.token)).Exact := by
    rw [Json.exact_array, List.forall_mem_map]
    exact fun token _ => exact_token token
  rw [output, Diagnostic.line, Json.read?_render exact _ isBlank_newline, Option.bind_some,
    Json.tokens?_printed]

/-- What is significant in what is printed does not depend on the indent. -/
theorem significant_output {value : Json} (exact : value.Exact) (pretty : Text) :
    Json.significant (output pretty value) = value.render 0 :=
  Json.significant_render exact _ isBlank_newline

/-- Modules without floating-point numbers that are printed alike up to insignificant blanks are the
same. -/
theorem eq_of_significant_output {module other : Module} (noFloats : NoFloats module.literals)
    (otherNoFloats : NoFloats other.literals) {pretty otherPretty : Text}
    (same : Json.significant (output pretty (Json.printed.module module)) =
      Json.significant (output otherPretty (Json.printed.module other))) : module = other := by
  have faithful := Json.faithful_module otherNoFloats
  refine faithful.eq_of_write module ?_
  exact Json.eq_of_significant (Json.faithful_module noFloats).exact faithful.exact
    isBlank_newline same

namespace Surroundings

variable (surroundings : Surroundings) {file source : Text} {settings : Settings}

/-- The tokens of a file that can be read are printed. -/
theorem tokenize_eq (reads : surroundings.files.readText (surroundings.resolve file) = .ok source)
    {tokens : List Token} (scans : Token.scan source = .ok tokens) :
    surroundings.tokenize file settings = .success
      (output settings.pretty (.array (tokens.map Json.printed.token))) := by
  simp only [tokenize, print, reads, scans]
  rfl

/-- The tree of a file that can be read is printed. -/
theorem parse_eq (reads : surroundings.files.readText (surroundings.resolve file) = .ok source)
    {module : Module} (parses : Module.parse source = .ok module) :
    surroundings.parse file settings = .success
      (output settings.pretty (Json.printed.module module)) := by
  simp only [parse, print, reads, parses]
  rfl

end Surroundings

/-- The JSON that is printed tells what it was printed of: tokens are read back as they were,
whatever the indent, and modules without floating-point numbers are the same if they are printed
alike up to insignificant blanks. This is what is written about a file that can be read. -/
theorem printed_json_tells :
    (∀ (tokens : List Token) (pretty : Text), (Json.read?
      (output pretty (.array (tokens.map Json.printed.token)))).bind Json.tokens? = some tokens) ∧
    (∀ (module other : Module) (pretty otherPretty : Text), NoFloats module.literals →
      NoFloats other.literals → Json.significant (output pretty (Json.printed.module module)) =
      Json.significant (output otherPretty (Json.printed.module other)) → module = other) ∧
    ∀ (surroundings : Surroundings) (file source : Text) (settings : Settings),
      surroundings.files.readText (surroundings.resolve file) = .ok source →
      (∀ tokens, Token.scan source = .ok tokens → surroundings.tokenize file settings = .success
      (output settings.pretty (.array (tokens.map Json.printed.token)))) ∧
      ∀ module, Module.parse source = .ok module → surroundings.parse file settings =
      .success (output settings.pretty (Json.printed.module module)) := by
  refine ⟨read?_output_tokens, ?trees, ?runs⟩
  case trees =>
    intro module other pretty otherPretty noFloats otherNoFloats same
    exact eq_of_significant_output noFloats otherNoFloats same
  case runs =>
    intro surroundings file source settings reads
    constructor
    · exact fun tokens scans => surroundings.tokenize_eq reads scans
    · exact fun module parses => surroundings.parse_eq reads parses

/-- A definition with a number that has more than 64 bits. -/
def wideNumber : Text := "x = 0x10000000000000001\n"

/-- A file with the definition. -/
def wideFile : Surroundings where
  files := .directory [("A.elm", .file (wideNumber.map UInt16.toUInt8))]
  cwd := "/"
  precedes := Collation.precedes

/-- The definition is printed at one indent as it is at another one with a further line break behind
it, so both are the same, and the tokens of the file are read back. -/
theorem wide_number_printed :
    wideFile.files.readText (wideFile.resolve "A.elm") = .ok wideNumber ∧ ∃ tokens module other,
      Token.scan wideNumber = .ok tokens ∧ Module.parse wideNumber = .ok module ∧
      NoFloats module.literals ∧ Module.parse (wideNumber ++ [Text.newline]) = .ok other ∧
      NoFloats other.literals ∧ Json.significant (output "0" (Json.printed.module module)) =
      Json.significant (output " 4px" (Json.printed.module other)) ∧ module = other ∧
      (Json.read? (wideFile.tokenize "A.elm" ⟨none, "3"⟩).stdout).bind Json.tokens? = some tokens ∧
      wideFile.parse "A.elm" ⟨none, "0"⟩ = .success (output "0" (Json.printed.module other)) := by
  obtain ⟨readsBack, tells, runs⟩ := printed_json_tells
  have reads : wideFile.files.readText (wideFile.resolve "A.elm") = .ok wideNumber := by
    decide +kernel
  obtain ⟨tokens, scans⟩ := ok_of_isOk (show (Token.scan wideNumber).isOk = true by decide +kernel)
  obtain ⟨module, parses⟩ :=
    ok_of_isOk (show (Module.parse wideNumber).isOk = true by decide +kernel)
  obtain ⟨other, otherParses⟩ :=
    ok_of_isOk (show (Module.parse (wideNumber ++ [Text.newline])).isOk = true by decide +kernel)
  have noFloats : ∀ module ∈ (Module.parse wideNumber).toOption, NoFloats module.literals := by
    decide +kernel
  have otherNoFloats : ∀ module ∈ (Module.parse (wideNumber ++ [Text.newline])).toOption,
        NoFloats module.literals := by
    decide +kernel
  have same :
      ((Module.parse wideNumber).toOption.map fun module => (Json.printed.module module).render 0) =
        (Module.parse (wideNumber ++ [Text.newline])).toOption.map fun module =>
        (Json.printed.module module).render 0 := by
    decide +kernel
  rw [parses] at noFloats same
  rw [otherParses] at otherNoFloats same
  have noFloats := noFloats module rfl
  have otherNoFloats := otherNoFloats other rfl
  have same : Json.significant (output "0" (Json.printed.module module)) =
      Json.significant (output " 4px" (Json.printed.module other)) := by
    rw [significant_output (Json.faithful_module noFloats).exact,
      significant_output (Json.faithful_module otherNoFloats).exact]
    exact Option.some.inj same
  have equal := tells module other "0" " 4px" noFloats otherNoFloats same
  refine ⟨reads, tokens, module, other, scans, parses, noFloats, otherParses, otherNoFloats, same,
    equal, ?_, ?_⟩
  · rw [(runs wideFile "A.elm" wideNumber ⟨none, "3"⟩ reads).1 tokens scans]
    exact readsBack tokens "3"
  · rw [← equal]
    exact (runs wideFile "A.elm" wideNumber ⟨none, "0"⟩ reads).2 module parses

end CommandLine

end Marginalia
