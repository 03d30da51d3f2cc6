import Marginalia.Json
import Marginalia.Syntax.Module

/-!
# Syntax trees as JSON

Every node becomes an object whose members stand in the order of the node's parts, the kind of the
node first. How spans and floating-point numbers are written is a choice of style, made once for a
whole tree; whole numbers of any size are strings. Trees are written by folding: a node is written
when its children are.
-/

namespace Marginalia.Json

/-- How the parts of a tree are written that can be written in more than one way. -/
structure Style where
  /-- A position in the source. -/
  position : Position → Json
  /-- A span of the source. -/
  span : Span → Json
  /-- A floating-point number. -/
  float : Binary64 → Json

/-- A list of strings. -/
def texts (values : List Text) : Json := .array (values.map .string)

/-- A value that may be absent. -/
def optional (write : α → Json) : Option α → Json
  | some value => write value
  | none => .null

/-- An object that begins with its kind. -/
def node (kind : String) (members : List (String × Json)) : Json :=
  fields (("kind", text kind) :: members)

/-- A comment. -/
def comment : Comment → Json
  | .line content => node "LineComment" [("text", .string content)]
  | .block lines => node "BlockComment" [("lines", texts lines)]

/-- Comments in order. -/
def comments (values : Comments) : Json := .array (values.map comment)

/-- A value between its comments. -/
def commented (write : α → Json) (value : Commented α) : Json :=
  fields [("before", comments value.before), ("value", write value.value),
    ("after", comments value.after)]

/-- Several values between their comments. -/
def commentedList (write : α → Json) (values : List (Commented α)) : Json :=
  .array (values.map (commented write))

/-- A qualified name. -/
def qualifiedName (name : QualifiedName) : Json :=
  fields [("namespace", texts name.qualifier), ("name", .string name.name)]

/-- What an expression refers to. -/
def reference : Reference → Json
  | .value name => node "VarRef" [("namespace", texts name.qualifier), ("name", .string name.name)]
  | .tag name => node "TagRef" [("namespace", texts name.qualifier), ("name", .string name.name)]
  | .operator symbol => node "OpRef" [("symbol", .string symbol)]

/-- What a type signature is about. -/
def annotatedName : AnnotatedName → Json
  | .value name => node "VarRef" [("name", .string name)]
  | .operator symbol => node "OpRef" [("symbol", .string symbol)]

/-- Where an application breaks lines. -/
def applicationLayout : ApplicationLayout → Json
  | .splitFirst => node "FASplitFirst" []
  | .joinFirst rest => node "FAJoinFirst" [("rest", text rest.name)]

/-- A listing. -/
def listing : Listing → Json
  | .everything values => node "OpenListing" [("comments", comments values)]
  | .explicit names trailing =>
    let listed (name : ListedName) : Json :=
      fields [("name", .string name.name), ("constructors", optional comments name.constructors)]
    node "ExplicitListing" [("names", commentedList listed names), ("trailing", comments trailing)]

/-- A fixity declaration. -/
def fixityDeclaration (declaration : FixityDeclaration) : Json :=
  node "Fixity"
    [("associativity", text declaration.associativity.name),
      ("precedence", commented .natural declaration.precedence),
      ("operator", commented .string declaration.operator)]

/-- One step of an operator chain over operators and operands that are written by the given
functions. -/
def clause (style : Style) (operator : ω → Json) (expression : ε → Json)
    (value : Clause ω ε) : Json :=
  fields [("preOperator", comments value.preOperator), ("operator",
    fields [("span", style.span value.operator.span), ("value", operator value.operator.value)]),
    ("preExpression", comments value.preExpression), ("expression", expression value.expression)]

/-- A flat operator chain. -/
def chain (style : Style) (operator : ω → Json) (expression : ε → Json) (left : ε)
    (clauses : List (Clause ω ε)) (layout : Layout) : Json :=
  node "Binops"
    [("left", expression left),
      ("clauses", .array (clauses.map (clause style operator expression))),
      ("multiline", text layout.name)]

/-- A type node whose children are written. -/
def typeNode : TypeNode Json → Json
  | .unit values => node "UnitType" [("comments", comments values)]
  | .name name => node "TypeVariable" [("name", .string name)]
  | .construction tag arguments =>
    node "TypeConstruction" [("constructor", qualifiedName tag),
      ("args", commentedList id arguments)]
  | .parens type => node "TypeParens" [("type", commented id type)]
  | .tuple elements => node "TupleType" [("elements", commentedList id elements)]
  | .record base members trailing multiline =>
    let member (field : RecordTypeField Json) : Json :=
      fields [("name", commented .string field.name), ("type", commented id field.type)]
    node "RecordType"
      [("base", optional (commented .string) base),
        ("fields", commentedList member members),
        ("trailing", comments trailing),
        ("multiline", .bool multiline)]
  | .function first rest multiline =>
    node "FunctionType" [("first", commented id first), ("rest", commentedList id rest),
      ("multiline", .bool multiline)]

/-- A condition and its body. -/
def ifClause (value : IfClause Json) : Json :=
  fields [("condition", commented id value.condition), ("body", commented id value.body)]

/-- A field of a record. -/
def recordPair (value : RecordPair Json) : Json :=
  fields
    [("key", commented .string value.key),
      ("value", commented id value.value),
      ("multiline", .bool value.multiline)]

/-- The header of a module. -/
def moduleHeader (value : ModuleHeader) : Json :=
  fields [("name", commented texts value.name), ("exposing", commented listing value.exposes)]

/-- An import. -/
def importDeclaration (value : Import) : Json :=
  fields
    [("module", commented texts value.name),
      ("alias", optional (commented .string) value.qualifier),
      ("exposing", optional (commented listing) value.exposes)]

namespace Style
variable (style : Style)

/-- A value with its span. -/
def located (write : α → Json) (value : Located α) : Json :=
  fields [("span", style.span value.span), ("value", write value.value)]

/-- A node with its span. -/
def spanned (span : Span) (value : Json) : Json :=
  fields [("span", style.span span), ("value", value)]

/-- A token. -/
def token (value : Token) : Json :=
  fields [("kind", text value.kind.name), ("lexeme", .string value.lexeme),
    ("span", style.span value.span)]

/-- A literal. -/
def literal : Literal → Json
  | .integer value form =>
    let representation := match form with
      | .decimal => "DecimalInt"
      | .hexadecimal => "HexadecimalInt"
    node "IntNum" [("value", .string (Text.ofInt value)), ("representation", text representation)]
  | .float value form =>
    let representation := match form with
      | .decimal => "DecimalFloat"
      | .exponent => "ExponentFloat"
    node "FloatNum" [("value", style.float value), ("representation", text representation)]
  | .character content => node "Chr" [("value", .string content)]
  | .string content multiline =>
    node "Str" [("value", .string content), ("multiline", .bool multiline)]
  | .boolean value => node "Boolean" [("value", .bool value)]

/-- A pattern node whose children are written. -/
def patternNode : PatternNode Json → Json
  | .anything => node "Anything" []
  | .unit values => node "UnitPattern" [("comments", comments values)]
  | .literal value => node "LiteralPattern" [("literal", style.literal value)]
  | .name name => node "VarPattern" [("name", .string name)]
  | .operator symbol => node "OpPattern" [("symbol", .string symbol)]
  | .data tag arguments =>
    node "DataPattern" [("constructor", qualifiedName tag), ("args", commentedList id arguments)]
  | .parens pattern => node "PatternParens" [("pattern", commented id pattern)]
  | .tuple elements => node "TuplePattern" [("elements", commentedList id elements)]
  | .emptyList values => node "EmptyListPattern" [("comments", comments values)]
  | .list elements => node "ListPattern" [("elements", commentedList id elements)]
  | .cons first rest =>
    node "ConsPattern" [("first", commented id first), ("rest", commentedList id rest)]
  | .record names => node "RecordPattern" [("fields", commentedList .string names)]
  | .named pattern name =>
    node "Alias" [("pattern", commented id pattern), ("name", commented .string name)]

/-- A pattern. -/
def pattern (value : Pattern) : Json :=
  value.fold fun span node => style.spanned span (style.patternNode node)

/-- A type. -/
def typeExpression (value : TypeExpression) : Json :=
  value.fold fun span node => style.spanned span (typeNode node)

/-- A type signature. -/
def signature (value : Signature) : Json :=
  node "TypeAnnotation" [("name", commented annotatedName value.name),
    ("annotation", commented style.typeExpression value.type)]

/-- A definition whose body is written. -/
def definition (value : Definition Json) : Json :=
  node "Definition"
    [("pattern", style.pattern value.pattern),
      ("args", commentedList style.pattern value.arguments),
      ("comments", comments value.comments),
      ("body", value.body)]

/-- A declaration whose body is written. -/
def declaration : Declaration Json → Json
  | .definition value => style.definition value
  | .signature value => style.signature value

/-- An entry of a `let` whose body is written. -/
def letEntry : LetEntry Json → Json
  | .declaration value =>
    node "LetCommonDeclaration" [("declaration", style.located style.declaration value)]
  | .comment value => node "LetComment" [("comment", comment value)]

/-- A branch of a case distinction. -/
def branch (value : Branch Json) : Json :=
  fields
    [("beforePattern", comments value.beforePattern),
      ("pattern", style.pattern value.pattern),
      ("beforeArrow", comments value.beforeArrow),
      ("afterArrow", comments value.afterArrow),
      ("body", value.body)]

/-- An expression node whose children are written. -/
def expressionNode (value : ExpressionNode Json) : Json :=
  match value with
  | .literal content => node value.kind [("literal", style.literal content)]
  | .reference name => node value.kind [("ref", reference name)]
  | .negation operand => node value.kind [("operator", text "Negative"), ("operand", operand)]
  | .range low high multiline =>
    node value.kind [("low", commented id low), ("high", commented id high),
      ("multiline", .bool multiline)]
  | .list terms trailing multiline =>
    node value.kind [("terms", commentedList id terms), ("trailing", comments trailing),
      ("multiline", .bool multiline)]
  | .application head arguments layout =>
    node value.kind [("head", head), ("args", commentedList id arguments),
      ("multiline", applicationLayout layout)]
  | .chain left clauses layout => chain style reference id left clauses layout
  | .conditional first rest final =>
    node value.kind
      [("first", ifClause first),
        ("rest", commentedList ifClause rest),
        ("final", commented id final)]
  | .caseOf subject multilineSubject branches =>
    node value.kind
      [("subject", commented id subject),
        ("multilineSubject", .bool multilineSubject),
        ("branches", .array (branches.map (style.located style.branch)))]
  | .letIn entries bodyComments body =>
    node value.kind
      [("declarations", .array (entries.map (style.located style.letEntry))),
        ("bodyComments", comments bodyComments),
        ("body", body)]
  | .lambda arguments values body multiline =>
    node value.kind
      [("args", commentedList style.pattern arguments),
        ("comments", comments values),
        ("body", body),
        ("multiline", .bool multiline)]
  | .tuple elements multiline =>
    node value.kind [("elements", commentedList id elements), ("multiline", .bool multiline)]
  | .parens expression => node value.kind [("expression", commented id expression)]
  | .unit values => node value.kind [("comments", comments values)]
  | .record base members trailing multiline =>
    node value.kind
      [("base", optional (commented .string) base),
        ("fields", commentedList recordPair members),
        ("trailing", comments trailing),
        ("multiline", .bool multiline)]
  | .access target field => node value.kind [("record", target), ("field", .string field)]
  | .accessor field => node value.kind [("field", .string field)]
  | .tupleFunction arity => node value.kind [("arity", .natural arity)]
  | .shader source => node value.kind [("source", .string source)]

/-- An expression. -/
def expression (value : Expression) : Json :=
  value.fold fun span node => style.spanned span (style.expressionNode node)

/-- A definition or signature. -/
def declarationTree (value : Declaration Expression) : Json :=
  style.declaration (value.map style.expression)

/-- A constructor of a declared type. -/
def variant (value : ConstructorVariant) : Json :=
  fields [("name", .string value.name),
    ("args", commentedList style.typeExpression value.arguments)]

/-- An entry at the top level. -/
def topLevel : TopLevel → Json
  | .declaration value => node "CommonDeclaration" [("declaration", style.declarationTree value)]
  | .fixity value => fixityDeclaration value
  | .typeAlias value =>
    node "TypeAlias"
      [("name", commented .string value.name),
        ("params", commentedList .string value.parameters),
        ("type", commented style.typeExpression value.type)]
  | .datatype value =>
    node "Datatype"
      [("name", commented .string value.name),
        ("params", commentedList .string value.parameters),
        ("variants", commentedList (style.located style.variant) value.variants)]
  | .comment value => node "BodyComment" [("comment", comment value)]

/-- A whole source file. -/
def module (value : Module) : Json :=
  fields
    [("initialComments", comments value.initialComments),
      ("header", optional (style.located moduleHeader) value.header),
      ("imports", commentedList (style.located importDeclaration) value.imports),
      ("body", .array (value.body.map (style.located style.topLevel)))]

end Style

/-- A position by its three counts. -/
def printedPosition (value : Position) : Json :=
  fields [("offset", .natural value.offset), ("line", .natural value.line),
    ("column", .natural value.column)]

/-- The style in which trees are printed: positions by their parts, and floating-point numbers with
the fewest digits that read back. There is no JSON number for infinity. -/
def printed : Style where
  position := printedPosition
  span value := fields [("start", printedPosition value.start), ("end", printedPosition value.stop)]
  float value := if value.isFinite then .real value.shortest else .null

end Marginalia.Json
