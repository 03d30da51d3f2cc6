import Marginalia.Grammar.Module
import Marginalia.Token.Scan

/-!
# Reading sources

From the text of a source to its tree. A source that cannot be read has a fault in its tokens or
does not match the grammar; the third case, a run cut short, does not arise on any source.
-/

namespace Marginalia

/-- Why a source cannot be read. -/
inductive SourceError where
  | scan (error : ScanError)
  | parse (error : ParseError)
  | interrupted (interruption : Interruption)
deriving DecidableEq, Repr

/-- The wording of an error. -/
def SourceError.message : SourceError → Text
  | scan error => error.message
  | parse error => error.message
  | interrupted interruption => interruption.message

/-- The place of an error in the source. -/
def SourceError.span? : SourceError → Option Span
  | scan error => some error.span
  | parse error => some error.span
  | interrupted _ => none

/-- The input that a source and its tokens make up. -/
def Input.ofSource? (source : Text) : Except ScanError Input :=
  (Token.scan source).map fun tokens => ⟨tokens.toArray, source⟩

/-- Runs a parser on a source from its start. -/
def Parser.run (parser : Parser α) (source : Text) : Except SourceError α :=
  match Input.ofSource? source with
  | .error error => .error (.scan error)
  | .ok input =>
    match parser input .start with
    | .done value _ => .ok value
    | .failed (.rejected error) _ => .error (.parse error)
    | .failed (.interrupted interruption) _ => .error (.interrupted interruption)

/-- Reads a whole source file. -/
def Module.parse (source : Text) : Except SourceError Module := Grammar.module.run source

/-- Reads a single expression, with the comments around it. -/
def Expression.parse (source : Text) : Except SourceError (Commented Expression) :=
  (Grammar.whole Grammar.expression).run source

/-- Reads a single pattern, with the comments around it. -/
def Pattern.parse (source : Text) : Except SourceError (Commented Pattern) :=
  (Grammar.whole Grammar.pattern).run source

/-- Reads a single type, with the comments around it. -/
def TypeExpression.parse (source : Text) : Except SourceError (Commented TypeExpression) :=
  (Grammar.whole Grammar.typeExpression).run source

end Marginalia
