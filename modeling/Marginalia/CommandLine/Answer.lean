import Marginalia.CommandLine.Arguments

/-!
# Answering a command line

The outer layer: a command line is answered by what the library that reads it prints itself, or by
the command that it names. No theorem is about it.
-/

namespace Marginalia.CommandLine.Surroundings

variable (surroundings : Surroundings)

/-- Does what a command line asks for. -/
def answer : Request → Outcome
  | .version => .success (Diagnostic.line version)
  | .help none => .success help
  | .help (some command) => .success command.help
  | .usage => .failure help
  | .tokenize file settings => surroundings.tokenize file settings
  | .parse file settings => surroundings.parse file settings
  | .check files settings => surroundings.check files settings
  | .reject error => .failure (Diagnostic.line error.message)

/-- Runs the program. -/
def run (arguments : List Text) : Outcome := surroundings.answer (.ofArguments arguments)

/-! ## What a run looks at -/

/-- The paths whose files a request is about, as far as the files seen so far tell. -/
def footprint (arguments : List Text) : List Text :=
  match Request.ofArguments arguments with
  | .tokenize file _ | .parse file _ => [surroundings.resolve file]
  | .check files settings =>
    let config := Config.locate surroundings.cwd settings.config
    let sources := match surroundings.findConfig settings.config files.isEmpty with
      | .ok (some found) => if files.isEmpty then [found.srcDir] else []
      | _ => []
    config :: sources ++ files.map surroundings.resolve
  | _ => []

end Marginalia.CommandLine.Surroundings
