import Marginalia.Decimal.Binary64
import Marginalia.FileTree
import Marginalia.Fixity
import Marginalia.Json.Reader
import Marginalia.Text.Blank

/-!
# Configuration

A configuration file is a JSON object that names the directory of sources and gives the fixities of
operators that the sources use and do not declare. It is checked member by member, and the first
fault counts.
-/

namespace Marginalia

/-- What a configuration file says, and where it stands. -/
structure Config where
  /-- The directory of sources, as written. -/
  src : Text
  /-- The fixities of operators. -/
  operators : Registry
  /-- The directory of the configuration file. -/
  rootDir : Text
  /-- The path of the configuration file. -/
  path : Text
deriving DecidableEq, Repr

namespace Config

/-- The name of a configuration file. -/
def fileName : String := "groom.json"

/-- The resolved path of the directory of sources. -/
def srcDir (config : Config) : Text := Path.resolve config.rootDir config.src

/-- What is wrong with the value that a configuration file holds. -/
inductive Fault where
  /-- The value is no object. -/
  | notObject
  /-- The directory of sources is no string, or a blank one. -/
  | source
  /-- The operators are no object. -/
  | operators
  /-- What is given for an operator is no object. -/
  | fixity (symbol : Text)
  /-- The precedence of an operator is no whole number from zero to nine. -/
  | precedence (symbol : Text)
  /-- The associativity of an operator is none of the three. -/
  | associativity (symbol : Text)
deriving DecidableEq, Repr

/-- Why a configuration cannot be loaded. -/
inductive Error where
  /-- There is no file at the path. -/
  | missing (path : Text)
  /-- The file cannot be read. -/
  | unreadable (error : FileError)
  /-- The file holds no JSON text. -/
  | invalidJson (path : Text)
  /-- The file holds another value than a configuration. -/
  | invalid (path : Text) (fault : Fault)
deriving DecidableEq, Repr

/-- What is said about a file that holds no JSON text. -/
def notJson : String := "the text is not a JSON value"

/-- A fault in a member of a configuration. -/
def memberMessage (member path : Text) (requirement : String) : Text :=
  "Config field \"" ++ member ++ "\" in " ++ path ++ " must " ++ requirement

/-- The wording of a fault in the file at a path. -/
def Fault.message (path : Text) : Fault → Text
  | notObject => "Config at " ++ path ++ " must be an object"
  | source => memberMessage "src" path "be a non-empty string"
  | operators => memberMessage "operators" path "map operators to fixities"
  | fixity symbol =>
    memberMessage ("operators." ++ symbol) path "be an object with precedence and associativity"
  | precedence symbol =>
    memberMessage ("operators." ++ symbol ++ ".precedence") path "be an integer from 0 to 9"
  | associativity symbol =>
    memberMessage ("operators." ++ symbol ++ ".associativity") path
      ("be one of " ++ ", ".intercalate (Associativity.all.map (·.name)))

/-- The wording of an error. -/
def Error.message : Error → Text
  | missing path => "No " ++ fileName ++ " found at " ++ path
  | unreadable error => error.message
  | invalidJson path => "Invalid JSON in " ++ path ++ ": " ++ notJson
  | invalid path fault => fault.message path

/-- The precedence that a JSON number stands for: the nearest number of 64 bits, if it is a whole
one from zero to nine. -/
def precedence? : Json → Option Nat
  | .natural n => if n ≤ maxPrecedence then some n else none
  | .real d => (Binary64.ofDecimal d).toNat?.filter (· ≤ maxPrecedence)
  | _ => none

/-- The associativity that a JSON string stands for. -/
def associativity? : Json → Option Associativity
  | .string name => Associativity.ofName? name
  | _ => none

/-- The fixity that is given for an operator. -/
def readFixity (symbol : Text) (value : Json) : Except Fault Fixity := do
  let some members := value.members? | throw (.fixity symbol)
  let some precedence := members.get? "precedence" >>= precedence? | throw (.precedence symbol)
  let some associativity :=
    members.get? "associativity" >>= associativity? | throw (.associativity symbol)
  return ⟨associativity, precedence⟩

/-- The key that cannot be given to an operator: an entry under it is checked and then has no
effect. -/
def inertKey : String := "__proto__"

/-- The fixities of the operators among some members. -/
def readFixities : List (Text × Json) → Except Fault (List (Text × Fixity))
  | [] => return []
  | (symbol, value) :: rest => do
    let fixity ← readFixity symbol value
    let others ← readFixities rest
    return if symbol = Text.ofString inertKey then others else (symbol, fixity) :: others

/-- The fixities of the operators, of which there may be none. -/
def readOperators : Option Json → Except Fault Registry
  | none => return .empty
  | some value => do
    let some members := value.members? | throw .operators
    return ⟨← readFixities members.entries⟩

/-- The directory of sources. -/
def readSource : Option Json → Except Fault Text
  | some (.string src) => if src.isBlank then throw .source else return src
  | _ => throw .source

/-- Checks the value of a configuration file. -/
def ofJson (value : Json) : Except Fault (Text × Registry) := do
  let some members := value.members? | throw .notObject
  let src ← readSource (members.get? "src")
  let operators ← readOperators (members.get? "operators")
  return (src, operators)

/-- The path of a configuration file: the named one as seen from the working directory, used as it
is when it is absolute, or else the one in the working directory. An empty name counts as none. -/
def locate (cwd : Text) (name : Option Text) : Text :=
  match name with
  | none | some [] => Path.child cwd fileName
  | some path => if Path.isAbsolute path then path else Path.resolve cwd path

/-- Loads a configuration. -/
def load (files : FileTree) (cwd : Text) (name : Option Text) : Except Error Config := do
  let path := locate cwd name
  if !files.contains path then throw (.missing path)
  let text ← (files.readText path).mapError .unreadable
  let some value := Json.read? text | throw (.invalidJson path)
  let (src, operators) ← (ofJson value).mapError (.invalid path)
  return ⟨src, operators, Path.directoryOf path, path⟩

end Config

end Marginalia
