import Marginalia.CommandLine.Help
import Marginalia.CommandLine.Run
import Marginalia.CommandLine.Suggestion

/-!
# Arguments

The outer layer: from the words of a command line to what is asked for, as the library does it that
the program reads its arguments with. No theorem is about it. The options of the program are
recognised before and after the command. The first argument that looks like an option and is none
begins the unknown part: what follows it is no longer an argument of the program, but options of the
program are still recognised there. Two dashes end the options.
-/

namespace Marginalia.CommandLine

/-- The options of the program. -/
inductive GlobalOption where
  | version
  | config
  | pretty
deriving DecidableEq, Repr

namespace GlobalOption

/-- Every option, in the order of the help text. -/
def all : List GlobalOption := [version, config, pretty]

/-- The short form of an option. -/
def short : GlobalOption → String
  | version => "-V"
  | config => "-c"
  | pretty => "-p"

/-- The long form of an option. -/
def long : GlobalOption → String
  | version => "--version"
  | config => "--config"
  | pretty => "--pretty"

/-- What an option's value is called; the version has none. -/
def value? : GlobalOption → Option String
  | version => none
  | config => some "<path>"
  | pretty => some "<n>"

/-- Both forms of an option and its value. -/
def flags (option : GlobalOption) : String :=
  option.short ++ ", " ++ option.long ++ (option.value?.map (" " ++ ·)).getD ""

/-- The option that a word is. -/
def ofFlag? (word : Text) : Option GlobalOption :=
  all.find? fun option => Text.ofString option.short == word || Text.ofString option.long == word

end GlobalOption

/-- The two forms of the option that asks for help. -/
def helpFlags : List String := ["-h", "--help"]

/-- Some word asks for help. -/
def asksForHelp (words : List Text) : Bool :=
  words.any fun word => helpFlags.any fun flag => Text.ofString flag == word

/-- The settings after one more option. -/
def Settings.set (settings : Settings) (option : GlobalOption) (value : Text) : Settings :=
  match option with
  | .version => settings
  | .config => { settings with config := some value }
  | .pretty => { settings with pretty := value }

/-- Why a command line cannot be followed. -/
inductive UsageError where
  /-- The value of an option is missing. -/
  | missingValue (option : GlobalOption)
  /-- A required argument is missing. -/
  | missingArgument (name : String)
  /-- An option is not known to the program, or to the command that was named. -/
  | unknownOption (command : Option Command) (flag : Text)
  /-- A command is not known. -/
  | unknownCommand (name : Text)
deriving DecidableEq, Repr

/-- The long options that may have been meant: the command's, then the program's. -/
def longOptions (command : Option Command) : List Text :=
  let program := GlobalOption.all.map (fun option => Text.ofString option.long) ++
    [Text.ofString "--help"]
  match command with
  | some _ => Text.ofString "--help" :: program
  | none => program

/-- The commands that may have been meant. -/
def commandNames : List Text := (Command.all.map (·.name) ++ [helpWord]).map Text.ofString

/-- The wording of an error. -/
def UsageError.message : UsageError → Text
  | missingValue option => "error: option '" ++ option.flags ++ "' argument missing"
  | missingArgument name => "error: missing required argument '" ++ name ++ "'"
  | unknownOption command flag =>
    let near := if dashes.isPrefixOf flag then suggestion flag (longOptions command) else []
    "error: unknown option '" ++ flag ++ "'" ++ near
  | unknownCommand name => "error: unknown command '" ++ name ++ "'" ++ suggestion name commandNames

/-- The words of a command line in their two parts, with the settings. -/
structure Words where
  /-- The arguments before the first unknown option. -/
  operands : List Text
  /-- The first unknown option and what follows it. -/
  unknown : List Text
  /-- The values of the options. -/
  settings : Settings
deriving DecidableEq, Repr

/-- What reading the options comes to. -/
inductive OptionsOutcome where
  | words (words : Words)
  | versionAsked
  | failed (error : UsageError)
deriving DecidableEq, Repr

/-- A word looks like an option. -/
def looksLikeOption (word : Text) : Bool := 1 < word.length && word.head? == some (.ofChar '-')

/-- An option and its value in one word: a letter and the rest, or a name, an equals sign and the
rest. -/
def attached? (word : Text) : Option (GlobalOption × Text) :=
  let name := word.takeWhile (· != .ofChar '=')
  match GlobalOption.ofFlag? (word.take 2) with
  | some option => some (option, word.drop 2)
  | none =>
    if dashes.isPrefixOf word && name.length < word.length then
      match GlobalOption.ofFlag? name with
      | some option => option.value?.map fun _ => (option, word.drop (name.length + 1))
      | none => none
    else none

/-- Adds a word to the part that is being read. -/
def Words.add (words : Words) (word : Text) : Words :=
  if words.unknown ≠ [] || looksLikeOption
    word then { words with unknown := words.unknown ++ [word] }
  else { words with operands := words.operands ++ [word] }

/-- Reads the options of the program from the words that are left. -/
def readOptions (words : Words) : List Text → OptionsOutcome
  | [] => .words words
  | word :: rest =>
    if word = dashes then
      if words.unknown = [] then .words { words with operands := words.operands ++ rest }
      else .words { words with unknown := words.unknown ++ word :: rest }
    else
      match GlobalOption.ofFlag? word with
      | some .version => .versionAsked
      | some option =>
        match rest with
        | [] => .failed (.missingValue option)
        | value :: rest =>
          readOptions { words with settings := words.settings.set option value } rest
      | none =>
        match attached? word with
        | some (.version, _) => .versionAsked
        | some (option, value) =>
          readOptions { words with settings := words.settings.set option value } rest
        | none => readOptions (words.add word) rest

/-- What a command line asks for. -/
inductive Request where
  /-- Print the version. -/
  | version
  /-- Print the help text of the program or of a command. -/
  | help (command : Option Command)
  /-- Show the help text of the program, since nothing can be done. -/
  | usage
  | tokenize (file : Text) (settings : Settings)
  | parse (file : Text) (settings : Settings)
  | check (files : List Text) (settings : Settings)
  | reject (error : UsageError)
deriving DecidableEq, Repr

/-- What a command asks for, given the arguments after its name. -/
def requestOf (command : Command) (words : Words) : Request :=
  if asksForHelp words.unknown then .help (some command)
  else
    match words.unknown with
    | flag :: _ => .reject (.unknownOption (some command) flag)
    | [] =>
      match command, words.operands with
      | .check, files => .check files words.settings
      | .tokenize, file :: _ => .tokenize file words.settings
      | .parse, file :: _ => .parse file words.settings
      | _, [] => .reject (.missingArgument "file")

/-- What the word `help` asks for, given the argument after it. -/
def helpRequest (name : Option Text) : Request :=
  match name with
  | none | some [] => .help none
  | some name =>
    match Command.ofName? name with
    | some command => .help (some command)
    | none => .usage

/-- What the words of a command line ask for. -/
def Words.request (words : Words) : Request :=
  match words.operands with
  | name :: arguments =>
    match Command.ofName? name with
    | some command => requestOf command { words with operands := arguments }
    | none =>
      if name = Text.ofString helpWord then helpRequest arguments.head?
      else if asksForHelp words.unknown then .help none
      else .reject (.unknownCommand name)
  | [] =>
    if asksForHelp words.unknown then .help none
    else
      match words.unknown with
      | flag :: _ => .reject (.unknownOption none flag)
      | [] => .usage

/-- What a command line asks for. -/
def Request.ofArguments (arguments : List Text) : Request :=
  match readOptions ⟨[], [], .initial⟩ arguments with
  | .words words => words.request
  | .versionAsked => .version
  | .failed error => .reject error

end Marginalia.CommandLine
