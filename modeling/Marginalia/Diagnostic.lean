import Marginalia.Fixity
import Marginalia.Parse

/-!
# Diagnostics

What a user is shown about an error: where it has a place in a source, the place, the message, the
source line and a caret under the first code unit of the place; otherwise the message alone.
-/

namespace Marginalia

/-- An error as it is shown. -/
inductive Diagnostic where
  /-- An error at a place in a source. -/
  | located (message : Text) (span : Span)
  /-- An error without a place. -/
  | plain (message : Text)
deriving DecidableEq, Repr

namespace Diagnostic

/-- The error of a source that cannot be read. -/
def ofSourceError (error : SourceError) : Diagnostic :=
  match error.span? with
  | some span => located error.message span
  | none => plain error.message

/-- The error of operators that cannot be grouped. -/
def ofFixityError (error : FixityError) : Diagnostic := located error.message error.span

/-- A line of output. -/
def line (content : Text) : Text := content ++ [Text.newline]

/-- The line of a source with a number counted from one; empty where there is none. -/
def sourceLine (source : Text) (number : Nat) : Text :=
  match number with
  | 0 => []
  | index + 1 => (source.lines[index]?).getD []

/-- A caret in a column counted from one; nothing before the first. -/
def caretLine (column : Nat) : Text :=
  match column with
  | 0 => []
  | blanks + 1 => line (List.replicate blanks (CodeUnit.ofChar ' ') ++ "^")

/-- The text that shows an error in the source at a path. -/
def render (path source : Text) : Diagnostic → Text
  | located message span =>
    let place := path ++ ":" ++ Text.ofNat span.start.line ++ ":" ++ Text.ofNat span.start.column
    line (place ++ ": error: " ++ message) ++ line (sourceLine source span.start.line) ++
      caretLine span.start.column
  | plain message => line message

end Diagnostic

end Marginalia
