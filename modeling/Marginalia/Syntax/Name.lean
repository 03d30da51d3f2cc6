import Marginalia.Text

/-!
# Names

Names of values, of constructors and of operators, as the nodes of a syntax tree refer to them.
-/

namespace Marginalia

/-- A name with the modules it is qualified by. -/
structure QualifiedName where
  /-- The upper-case names before the last dot. -/
  qualifier : List Text
  /-- The name after the last dot. -/
  name : Text
deriving DecidableEq, Repr, Inhabited

/-- All parts of a qualified name, outermost first. -/
def QualifiedName.parts (qualified : QualifiedName) : List Text :=
  qualified.qualifier ++ [qualified.name]

/-- The qualified name that begins with `first` and goes on with `rest`. -/
def QualifiedName.ofParts (first : Text) : List Text → QualifiedName
  | [] => ⟨[], first⟩
  | next :: rest =>
    let inner := ofParts next rest
    ⟨first :: inner.qualifier, inner.name⟩

/-- What an expression refers to. -/
inductive Reference where
  /-- A value, by a lower-case name. -/
  | value (name : QualifiedName)
  /-- A constructor, by an upper-case name. -/
  | tag (name : QualifiedName)
  /-- An operator, by its symbol. -/
  | operator (symbol : Text)
deriving DecidableEq, Repr, Inhabited

/-- The spelling under which a reference's fixity is looked up. -/
def Reference.symbol : Reference → Text
  | .value name => name.name
  | .tag name => name.name
  | .operator symbol => symbol

/-- What a type signature is about. -/
inductive AnnotatedName where
  | value (name : Text)
  | operator (symbol : Text)
deriving DecidableEq, Repr, Inhabited

end Marginalia
