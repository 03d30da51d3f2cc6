import Marginalia.Fixity.Precedence
import Marginalia.Keyed
import Marginalia.Syntax.Module

/-!
# Fixities

How tightly operators bind and to which side they group. Fixities come in layers: those of the core
library, those of a configuration, those declared in a module. A later layer overrides an earlier
one, and within a module the first declaration of an operator counts.
-/

namespace Marginalia

/-- The associativity and the precedence of an operator; a higher precedence binds tighter. -/
structure Fixity where
  /-- The side to which operators of one precedence group. -/
  associativity : Associativity
  /-- How tightly the operator binds. -/
  precedence : Precedence
deriving DecidableEq, Repr, Inhabited

namespace Fixity

/-- The operators of the core library. -/
def builtinOperators : List (String × Fixity) :=
  [("|>", ⟨.left, 0⟩), ("<|", ⟨.right, 0⟩),
    ("||", ⟨.right, 2⟩),
    ("&&", ⟨.right, 3⟩),
    ("==", ⟨.none, 4⟩), ("/=", ⟨.none, 4⟩),
    ("<", ⟨.none, 4⟩), (">", ⟨.none, 4⟩), ("<=", ⟨.none, 4⟩), (">=", ⟨.none, 4⟩),
    ("++", ⟨.right, 5⟩), ("::", ⟨.right, 5⟩),
    ("+", ⟨.left, 6⟩), ("-", ⟨.left, 6⟩),
    ("*", ⟨.left, 7⟩), ("/", ⟨.left, 7⟩), ("//", ⟨.left, 7⟩),
    ("^", ⟨.right, 8⟩),
    ("<<", ⟨.left, 9⟩), (">>", ⟨.right, 9⟩)]

/-- The fixity of an operator that nobody declared. -/
def undeclared : Fixity := ⟨.left, 9⟩

end Fixity

/-- The fixities of operators, in the order in which they were declared. -/
abbrev Registry := Keyed Fixity

namespace Registry

/-- The fixities of the core library. -/
def builtin : Registry :=
  ⟨Fixity.builtinOperators.map fun entry => (Text.ofString entry.1, entry.2)⟩

/-- The fixity of an operator, or that of undeclared operators. -/
def fixity (registry : Registry) (symbol : Text) : Fixity := (registry.get? symbol).getD .undeclared

end Registry

/-- Why operators cannot be grouped. -/
inductive FixityError where
  /-- A second declaration of an operator in a module. -/
  | duplicate (symbol : Text) (span : Span)
  /-- Two operators of one precedence, at least one of which groups to no side. -/
  | nonAssociative (first second : Text) (precedence : Precedence) (span : Span)
  /-- Two operators of one precedence that group to different sides. -/
  | mixed (first second : Text × Associativity) (precedence : Precedence) (span : Span)
deriving DecidableEq, Repr

namespace FixityError

/-- The place of an error: the second declaration, or the second operator. -/
def span : FixityError → Span
  | duplicate _ span => span
  | nonAssociative _ _ _ span => span
  | mixed _ _ _ span => span

/-- The wording of an error. -/
def message : FixityError → Text
  | duplicate symbol _ => "Duplicate infix declaration for operator '" ++ symbol ++ "'"
  | nonAssociative first second precedence _ =>
    "Cannot chain '" ++ first ++ "' and '" ++ second ++
      "': non-associative operators at precedence " ++ precedence.text ++ " need parentheses"
  | mixed first second precedence _ =>
    "Cannot mix " ++ first.2.name ++ "-associative '" ++ first.1 ++ "' and " ++ second.2.name ++
      "-associative '" ++ second.1 ++ "' at precedence " ++ precedence.text

end FixityError

/-- The fixities a module declares, and an error for every further declaration of an operator. -/
structure DeclaredFixities where
  /-- The first declaration of each operator. -/
  registry : Registry
  /-- The further ones, in order. -/
  errors : List FixityError

/-- Takes one more entry of a module into account. -/
def DeclaredFixities.add (declared : DeclaredFixities) (entry : Located TopLevel) :
    DeclaredFixities :=
  match entry.value with
  | .fixity declaration =>
    let symbol := declaration.operator.value
    if declared.registry.contains symbol then
      { declared with errors := declared.errors ++ [.duplicate symbol entry.span] }
    else
      let fixity : Fixity := ⟨declaration.associativity, declaration.precedence.value⟩
      { declared with registry := declared.registry.insert symbol fixity }
  | _ => declared

/-- Collects the fixity declarations of a module. -/
def Module.declaredFixities (module : Module) : DeclaredFixities :=
  module.body.foldl DeclaredFixities.add ⟨.empty, []⟩

end Marginalia
