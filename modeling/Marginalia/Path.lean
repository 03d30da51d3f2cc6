import Marginalia.Text

/-!
# Paths

Paths are texts whose components are divided by slashes. A resolved path is absolute and has no
empty, single or double dot component, except that the root is a single slash.
-/

namespace Marginalia.Path

/-- The mark between components. -/
def separator : CodeUnit := CodeUnit.ofChar '/'

/-- The path begins at the root. -/
def isAbsolute (path : Text) : Bool := path.head? == some separator

/-- The component that stands for the directory itself. -/
def here : Text := "."

/-- The component that stands for the parent directory. -/
def parent : Text := ".."

/-- One step from a directory, given by its components from the last to the first. The parent of the
root is the root. -/
def descend (directory : List Text) (component : Text) : List Text :=
  if component = [] ∨ component = here then directory
  else if component = parent then directory.drop 1
  else component :: directory

/-- The components of an absolute path, with the dots followed. -/
def normalize (path : Text) : List Text := ((path.split separator).foldl descend []).reverse

/-- The absolute path with the given components. -/
def ofComponents (components : List Text) : Text := separator :: [separator].intercalate components

/-- The resolved form of a path as seen from a directory. -/
def resolve (directory path : Text) : Text :=
  ofComponents (normalize (if isAbsolute path then path else directory ++ [separator] ++ path))

/-- The path of an entry in a directory. -/
def child (directory name : Text) : Text := resolve directory name

/-- What a path is below: everything before the last component and the slash in front of it. -/
def directoryOf (path : Text) : Text :=
  let beforeName := (path.reverse.dropWhile (· == separator)).dropWhile (· != separator)
  match beforeName.drop 1 with
  | [] => if isAbsolute path then [separator] else here
  | [only] => if isAbsolute path then [separator, separator] else [only]
  | units => units.reverse

/-- The components that lead from one directory to another place: up to where the two part, then
down. -/
def steps : List Text → List Text → List Text
  | first :: source, second :: target =>
    if first = second then steps source target
    else (first :: source).map (fun _ => parent) ++ second :: target
  | source, target => source.map (fun _ => parent) ++ target

/-- A path as seen from a directory, both resolved. -/
def relative (directory path : Text) : Text :=
  [separator].intercalate (steps (normalize directory) (normalize path))

/-- How a path is shown to someone in a directory: as seen from there, unless it begins with two
dots. -/
def shown (directory path : Text) : Text :=
  let seen := relative directory path
  if parent.isPrefixOf seen then path else seen

end Marginalia.Path
