import Marginalia.Config
import Marginalia.Diagnostic
import Marginalia.Fixity.Tree
import Marginalia.Json.Tree

/-!
# Commands

What the commands of the program do, as a function of the files it can see: the texts that are
written and the exit code. Each file is checked on its own against the fixities of the core library,
the configuration and the file.
-/

namespace Marginalia.CommandLine

/-- What a run of the program comes to. -/
structure Outcome where
  /-- Zero when all went well. -/
  exitCode : Nat
  /-- What is written to the standard output. -/
  stdout : Text
  /-- What is written to the standard error output. -/
  stderr : Text
deriving DecidableEq, Repr

/-- Everything went well. -/
def Outcome.success (stdout : Text) : Outcome := ⟨0, stdout, []⟩

/-- Something went wrong. -/
def Outcome.failure (stderr : Text) : Outcome := ⟨1, [], stderr⟩

/-- The values that the options were given; the last one counts. -/
structure Settings where
  /-- The path of the configuration file. -/
  config : Option Text
  /-- The indent of printed values, as written. -/
  pretty : Text
deriving DecidableEq, Repr

/-- The settings without any option. -/
def Settings.initial : Settings := ⟨none, "2"⟩

/-- The greatest indent of printed values. -/
def maxIndent : Nat := 10

/-- The indent without any option, and for an option that is no number. -/
def defaultIndent : Nat := 2

/-- The indent that an option's value stands for: white space, a sign and digits, whatever follows.
A negative one is zero. -/
def indentOf (value : Text) : Nat :=
  let signed := value.dropWhile CodeUnit.isWhiteSpace
  let negative := signed.head? == some (.ofChar '-')
  let unsigned := if negative || signed.head? == some (.ofChar '+') then signed.drop 1 else signed
  match unsigned.takeWhile CodeUnit.isDigit with
  | [] => defaultIndent
  | digits => if negative then 0 else min (Decimal.valueOf 10 digits) maxIndent

/-- What the program can see: the files, the directory it is called from, and the order in which the
place where it runs lists names. -/
structure Surroundings where
  /-- The files below the root. -/
  files : FileTree
  /-- The resolved path of the working directory. -/
  cwd : Text
  /-- Whether the first of two names does not come after the second. -/
  precedes : Text → Text → Bool

namespace Surroundings
variable (surroundings : Surroundings)

/-- The resolved path of a file that was named. -/
def resolve (name : Text) : Text := Path.resolve surroundings.cwd name

/-- The text that shows an error in the source at a path. -/
def describe (path source : Text) (diagnostic : Diagnostic) : Text :=
  diagnostic.render (Path.shown surroundings.cwd path) source

/-! ## Printing tokens and trees -/

/-- Prints what is made of the text of a file. -/
def print (file : Text) (settings : Settings) (view : Text → Except SourceError Json) : Outcome :=
  let path := surroundings.resolve file
  match surroundings.files.readText path with
  | .error error => .failure (surroundings.describe path [] (.plain error.message))
  | .ok source =>
    match view source with
    | .error error => .failure (surroundings.describe path source (.ofSourceError error))
    | .ok value => .success (Diagnostic.line (value.render (indentOf settings.pretty)))

/-- Prints the tokens of a file. -/
def tokenize (file : Text) (settings : Settings) : Outcome :=
  surroundings.print file settings fun source =>
    match Token.scan source with
    | .ok tokens => .ok (.array (tokens.map Json.printed.token))
    | .error error => .error (.scan error)

/-- Prints the tree of a file. -/
def parse (file : Text) (settings : Settings) : Outcome :=
  surroundings.print file settings fun source => (Module.parse source).map Json.printed.module

/-! ## Checking files -/

/-- What checking a file comes to. -/
structure Report where
  /-- The file passes. -/
  passed : Bool
  /-- What is written about it. -/
  text : Text

/-- The text that shows an error in the fixities of a source. -/
def describeFixity (path source : Text) (error : FixityError) : Text :=
  surroundings.describe path source (.ofFixityError error)

/-- Checks a source under fixities that its own declarations override. A further declaration of an
operator is written down, and fails the file once its chains are grouped. -/
def checkSource (registry : Registry) (path source : Text) : Report :=
  match Module.parse source with
  | .error error => ⟨false, surroundings.describe path source (.ofSourceError error)⟩
  | .ok module =>
    let declared := module.declaredFixities
    let further := declared.errors.flatMap (surroundings.describeFixity path source)
    match module.resolve (registry.merge declared.registry) with
    | .ok _ => ⟨declared.errors.isEmpty, further⟩
    | .error error => ⟨false, further ++ surroundings.describeFixity path source error⟩

/-- Checks a file. -/
def checkFile (registry : Registry) (path : Text) : Report :=
  match surroundings.files.readText path with
  | .error error => ⟨false, surroundings.describe path [] (.plain error.message)⟩
  | .ok source => surroundings.checkSource registry path source

/-- Checks files one by one and counts those that fail. -/
def checkFiles (registry : Registry) (paths : List Text) : Outcome :=
  let reports := paths.map (surroundings.checkFile registry)
  let failed := reports.countP (!·.passed)
  ⟨if 0 < failed then 1 else 0,
    Diagnostic.line
      ("Checked " ++ Text.ofNat paths.length ++ " file(s), " ++ Text.ofNat failed ++ " failed"),
    reports.flatMap (·.text)⟩

/-- The configuration, when one was named, is there or is needed. -/
def findConfig (name : Option Text) (needed : Bool) : Except Config.Error (Option Config) :=
  let named := name.any (· != [])
  if !named && !needed && !surroundings.files.contains (Config.locate surroundings.cwd none) then
    .ok none
  else
    (Config.load surroundings.files surroundings.cwd name).map some

/-- The extension of source files. -/
def sourceExtension : Text := ".elm"

/-- The files to check: those that were named, or else all sources below the configured
directory. -/
def targets (files : List Text) (config : Option Config) : Except Text (List Text) :=
  match files, config with
  | [], none => .ok []
  | [], some config =>
    if surroundings.files.contains config.srcDir then
      (surroundings.files.filesBelow surroundings.precedes sourceExtension config.srcDir).mapError
        FileError.message
    else
      .error ("Source directory " ++ config.srcDir ++ " does not exist")
  | files, _ => .ok (files.map surroundings.resolve)

/-- The fixities that all files are checked under. -/
def baseRegistry (config : Option Config) : Registry :=
  match config with
  | some config => Registry.builtin.merge config.operators
  | none => Registry.builtin

/-- Checks the files that were named, or else all sources. -/
def check (files : List Text) (settings : Settings) : Outcome :=
  match surroundings.findConfig settings.config files.isEmpty with
  | .error error => .failure (Diagnostic.line error.message)
  | .ok config =>
    match surroundings.targets files config with
    | .error message => .failure (Diagnostic.line message)
    | .ok paths => surroundings.checkFiles (baseRegistry config) paths

end Surroundings

end Marginalia.CommandLine
