import Marginalia.Text

/-!
# Help

The outer layer: the name, the version and the commands of the program, and the texts that explain
how to use them. No theorem is about it.
-/

namespace Marginalia.CommandLine

/-- The commands. -/
inductive Command where
  | tokenize
  | parse
  | check
deriving DecidableEq, Repr

namespace Command

/-- Every command, in the order of the help text. -/
def all : List Command := [tokenize, parse, check]

/-- The word for a command. -/
def name : Command → String
  | tokenize => "tokenize"
  | parse => "parse"
  | check => "check"

/-- The command with a given name. -/
def ofName? (name : Text) : Option Command :=
  all.find? fun command => Text.ofString command.name == name

/-- How the arguments of a command are written. -/
def arguments : Command → String
  | tokenize => "<file>"
  | parse => "<file>"
  | check => "[files...]"

/-- What a command does. -/
def description : Command → String
  | tokenize => "Print the tokens of a source file, comments included"
  | parse => "Print the comment-annotated AST of a source file"
  | check => "Parse files and group their operators (default: every .elm file under src)"

/-- The help text of a command. -/
def help (command : Command) : String :=
  "Usage: groom " ++ command.name ++ " [options] " ++ command.arguments ++ "\n\n" ++
    command.description ++ "\n\n" ++
    "Options:\n" ++
    "  -h, --help  display help for command\n"

end Command

/-- The word that asks for help. -/
def helpWord : String := "help"

/-- The version of the program. -/
def version : String := "0.1.0"

/-- The help text of the program. -/
def help : String :=
  "Usage: groom [options] [command]\n\n" ++
    "Comment-preserving parser for Elm source files\n\n" ++
    "Options:\n" ++
    "  -V, --version        output the version number\n" ++
    "  -c, --config <path>  Path to groom.json config file\n" ++
    "  -p, --pretty <n>     Pretty-print JSON output with <n> spaces (default: \"2\")\n" ++
    "  -h, --help           display help for command\n\n" ++
    "Commands:\n" ++
    "  tokenize <file>      Print the tokens of a source file, comments included\n" ++
    "  parse <file>         Print the comment-annotated AST of a source file\n" ++
    "  check [files...]     Parse files and group their operators (default: every\n" ++
    "                       .elm file under src)\n" ++
    "  help [command]       display help for command\n"

end Marginalia.CommandLine
