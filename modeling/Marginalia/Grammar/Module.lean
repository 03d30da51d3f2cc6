import Marginalia.Grammar.Expression
import Marginalia.Syntax.Module

/-!
# The grammar of modules

    module = [header] {import} {declaration}

Every top-level declaration begins in the first column; what it continues with on later lines is
indented.
-/

namespace Marginalia.Grammar
open Marginalia.Parser

/-! ## Header and imports -/

/-- The parts of a module's name. -/
def moduleName : Parser (List Text) := return (← qualifiedUpperName).parts

/-- Two dots in parentheses, after the opening one: the comments inside, or nothing at all. -/
def everything : Parser Comments :=
  attempt do
    let before ← whitespace
    let _ ← token .range "'..'"
    let after ← whitespace
    let _ ← token .rightParen "')'"
    return before ++ after

/-- The mark `(..)` with the comments before it, or nothing at all. -/
def allConstructors : Parser Comments :=
  attempt do
    let comments ← whitespace
    let _ ← token .leftParen "'('"
    let _ ← token .range "'..'"
    let _ ← token .rightParen "')'"
    return comments

/-- A name in a listing. -/
def listedName : Parser ListedName :=
  choiceNamed "an exposed name"
    [do return ⟨← lowerName, none⟩,
      do return ⟨"(" ++ (← parenthesizedOperator) ++ ")", none⟩,
      do
        let name ← upperName
        return ⟨name, ← optional allConstructors⟩]

/-- A listing in parentheses. -/
def listing : Parser Listing := do
  let _ ← token .leftParen "'('"
  match ← optional everything with
  | some comments => return .everything comments
  | none =>
    let contents ← separated .rightParen listedName "')'"
    return .explicit contents.items contents.trailing

/-- The header of a module. -/
def moduleHeader : Parser (Located ModuleHeader) :=
  located do
    let _ ← keyword "module"
    let preName ← whitespace
    let name ← moduleName
    let postName ← whitespace
    let _ ← keyword "exposing"
    let preListing ← whitespace
    return ⟨⟨preName, name, postName⟩, .pre preListing (← listing)⟩

/-- A word with the comments on both sides of it and what it introduces, or nothing at all. -/
def introduced (word : String) (parser : Parser α) : Parser (Commented α) :=
  attempt do
    let before ← whitespace
    let _ ← keyword word
    let after ← whitespace
    return .pre (before ++ after) (← parser)

/-- An import. -/
def importDeclaration : Parser (Located Import) :=
  located do
    let _ ← keyword "import"
    let preName ← whitespace
    let name ← moduleName
    let qualifier ← optional (introduced "as" upperName)
    let exposes ← optional (introduced "exposing" listing)
    return ⟨.pre preName name, qualifier, exposes⟩

/-- At most `bound` imports after the comments that were read, and the comments after the last
one. -/
def importsUpTo :
    Nat → Located Comments → Parser (List (Commented (Located Import)) × Located Comments)
  | 0, _ => interrupt .exhausted
  | bound + 1, pending => do
    if ← peekSpelled .keyword "import" then
      let declaration ← importDeclaration
      let (rest, last) ← importsUpTo bound (← located whitespace)
      return (.pre pending.value declaration :: rest, last)
    else
      return ([], pending)

/-! ## Declarations -/

/-- The words that declare a fixity. -/
def fixityKeyword? (lexeme : Text) : Option Associativity :=
  ([("infixl", .left), ("infixr", .right), ("infix", .none)].find? fun entry =>
    Text.ofString entry.1 == lexeme).map (·.2)

/-- The declaration of an operator's fixity; the operator may stand in parentheses. -/
def fixityDeclaration : Parser FixityDeclaration := do
  let keyword ← satisfy (fun token =>
      token.kind == .keyword && (fixityKeyword? token.lexeme).isSome) "an infix declaration"
  let prePrecedence ← whitespace
  let number ← token .number ParseError.precedenceLabel
  match precedenceOf? number.lexeme with
  | none => reject (.invalidPrecedence number)
  | some precedence =>
    let preOperator ← whitespace
    let symbol ← choice [parenthesizedOperator, operatorSymbol]
    return ⟨(fixityKeyword? keyword.lexeme).getD .none, .pre prePrecedence precedence,
      .pre preOperator symbol⟩

/-- The word `alias` with the comments before it, or nothing at all. It is only special in this
place. -/
def aliasWord : Parser Comments :=
  attempt do
    let comments ← whitespace
    let _ ← spelled .lowerIdentifier "alias"
    return comments

/-- A constructor and the types of its arguments. -/
def variant : Parser (Located ConstructorVariant) :=
  located do
    let name ← upperName
    return ⟨name, ← spaced typeTerm⟩

/-- A bar between two constructors with the comments before it, or nothing at all. -/
def variantBar : Parser Comments :=
  attempt do
    let comments ← whitespace
    let _ ← token .pipe "'|'"
    return comments

/-- At most `bound` constructors, after the comments before the first one. -/
def variantsUpTo : Nat → Comments → Parser (List (Commented (Located ConstructorVariant)))
  | 0, _ => interrupt .exhausted
  | bound + 1, before => do
    let first ← variant
    match ← optional variantBar with
    | none => return [.pre before first]
    | some after =>
      let next ← whitespace
      return ⟨before, first, after⟩ :: (← variantsUpTo bound next)

/-- The constructors of a type. -/
def variants (before : Comments) :
    Parser (List (Commented (Located ConstructorVariant))) := fun input =>
  variantsUpTo input.repetitionLimit before input

/-- The declaration of a type or of another name for one. -/
def typeDeclaration : Parser TopLevel := do
  let _ ← keyword "type"
  let aliasComments ← optional aliasWord
  let preName ← whitespace
  let name ← upperName
  let parameters ← spaced lowerName
  let preEquals ← whitespace
  let _ ← token .equals "'='"
  let postEquals ← whitespace
  let comments := preEquals ++ postEquals
  match aliasComments with
  | some preAlias =>
    let type ← typeExpression
    return .typeAlias ⟨.pre (preAlias ++ preName) name, parameters, .pre comments type⟩
  | none =>
    return .datatype ⟨.pre preName name, parameters, ← variants comments⟩

/-- A declaration at the top level. -/
def topLevel : Parser (Located TopLevel) := do
  if (← position).column ≠ 1 then
    fail ["a declaration starting at column 1"]
  else
    withReference (located (choiceNamed "a declaration"
      [do return .fixity (← fixityDeclaration),
        typeDeclaration,
        do return .declaration (← declaration expression)]))

/-- Comments at the top level, as entries that all have the span of their place. -/
def commentEntries (comments : Located Comments) : List (Located TopLevel) :=
  comments.value.map fun comment => ⟨comments.span, .comment comment⟩

/-- At most `bound` declarations up to the end of the input, with the comments after each. -/
def declarationsUpTo : Nat → Parser (List (Located TopLevel))
  | 0 => interrupt .exhausted
  | bound + 1 => do
    if (← peek).kind = .eof then
      return []
    else
      let entry ← topLevel
      let comments ← located whitespace
      return entry :: (commentEntries comments ++ (← declarationsUpTo bound))

/-- A whole source file. -/
def module : Parser Module := do
  let initialComments ← whitespace
  let header ← optional moduleHeader
  let pending ← located whitespace
  let (imports, last) ← fun input => importsUpTo input.repetitionLimit pending input
  let declarations ← fun input => declarationsUpTo input.repetitionLimit input
  eof
  return ⟨initialComments, header, imports, commentEntries last ++ declarations⟩

/-- What a parser reads when nothing but blanks and comments stand around it. -/
def whole (parser : Parser α) : Parser (Commented α) := do
  let before ← whitespace
  let value ← withReference parser
  let after ← whitespace
  eof
  return ⟨before, value, after⟩

end Marginalia.Grammar
