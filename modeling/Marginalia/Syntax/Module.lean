import Marginalia.Syntax.Expression

/-!
# Modules

A source file: an optional header, imports, and top-level declarations with the comments between
them.
-/

namespace Marginalia

/-- How operators of one precedence group. -/
inductive Associativity where
  | left
  | right
  | none
deriving DecidableEq, Repr, Inhabited

namespace Associativity

/-- Every associativity, in the order in which they are offered. -/
def all : List Associativity := [left, right, none]

/-- The word for an associativity. -/
def name : Associativity → String
  | left => "left"
  | right => "right"
  | none => "none"

/-- The associativity with a given name. -/
def ofName? (name : Text) : Option Associativity := all.find? fun a => Text.ofString a.name == name

end Associativity

/-- A name in an explicit listing. -/
structure ListedName where
  /-- The name; an operator keeps its parentheses. -/
  name : Text
  /-- When the name is followed by `(..)`, the comments in between. -/
  constructors : Option Comments
deriving DecidableEq, Repr, Inhabited

/-- What a module exposes or an import brings into scope. -/
inductive Listing where
  /-- Everything. -/
  | everything (comments : Comments)
  /-- The listed names; comments inside an empty listing are trailing. -/
  | explicit (names : List (Commented ListedName)) (trailing : Comments)
deriving DecidableEq, Repr

/-- The header of a module. -/
structure ModuleHeader where
  /-- The parts of the module's name. -/
  name : Commented (List Text)
  /-- What the module exposes. -/
  exposes : Commented Listing
deriving DecidableEq, Repr

/-- An import. -/
structure Import where
  /-- The parts of the imported module's name. -/
  name : Commented (List Text)
  /-- The name the module is known by. -/
  qualifier : Option (Commented Text)
  /-- What is brought into scope unqualified. -/
  exposes : Option (Commented Listing)
deriving DecidableEq, Repr

/-- The declaration of an operator's fixity. -/
structure FixityDeclaration where
  /-- How the operator groups. -/
  associativity : Associativity
  /-- How tightly the operator binds. -/
  precedence : Commented Nat
  /-- The operator's symbol. -/
  operator : Commented Text
deriving DecidableEq, Repr

/-- The declaration of another name for a type. -/
structure TypeAlias where
  /-- The new name. -/
  name : Commented Text
  /-- The type variables it is given for. -/
  parameters : List (Commented Text)
  /-- The type, with the comments around the equals sign before it. -/
  type : Commented TypeExpression

/-- A constructor of a declared type. -/
structure ConstructorVariant where
  /-- The constructor's name. -/
  name : Text
  /-- The types of its arguments. -/
  arguments : List (Commented TypeExpression)

/-- The declaration of a type by its constructors. -/
structure Datatype where
  /-- The name of the type. -/
  name : Commented Text
  /-- The type variables it is given for. -/
  parameters : List (Commented Text)
  /-- The constructors, with the comments around the bars. -/
  variants : List (Commented (Located ConstructorVariant))

/-- An entry at the top level of a module. -/
inductive TopLevel where
  | declaration (declaration : Declaration Expression)
  | fixity (fixity : FixityDeclaration)
  | typeAlias (typeAlias : TypeAlias)
  | datatype (datatype : Datatype)
  | comment (comment : Comment)

/-- A whole source file. -/
structure Module where
  /-- The comments before the header, or before the first import or declaration. -/
  initialComments : Comments
  /-- The header, if there is one. -/
  header : Option (Located ModuleHeader)
  /-- The imports, each with the comments before it. -/
  imports : List (Commented (Located Import))
  /-- The declarations and the comments between them. -/
  body : List (Located TopLevel)

/-- The bodies of an entry that is a definition. -/
def TopLevel.bodies : TopLevel → List Expression
  | declaration d => d.bodies
  | _ => []

/-- The bodies of the top-level definitions of a module, in order. -/
def Module.expressions (module : Module) : List Expression := module.body.flatMap (·.value.bodies)

end Marginalia
