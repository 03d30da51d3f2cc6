import Marginalia.Path
import Marginalia.Text.Utf8

/-!
# Trees of files

What a command reads: the directories and files below the root. A path is followed component by
component, so that a path through something that is no directory fails in another way than a path to
nothing. The order in which the entries of a directory are visited is given from outside.
-/

namespace Marginalia

/-- A file with its bytes, or a directory with its entries. -/
inductive FileTree where
  | file (bytes : List UInt8)
  | directory (entries : List (Text × FileTree))
deriving Inhabited

/-- Why a path leads nowhere or a file cannot be read. -/
inductive FileFault where
  /-- A component is not there. -/
  | notFound
  /-- A component that has to be a directory is none. -/
  | notDirectory
  /-- What has to be a file is a directory. -/
  | isDirectory
deriving DecidableEq, Repr

/-- The two ways in which a command uses a path. -/
inductive FileUse where
  | openFile
  | scanDirectory
deriving DecidableEq, Repr

/-- A fault in using a path. -/
structure FileError where
  /-- What is wrong. -/
  fault : FileFault
  /-- What the path was used for. -/
  use : FileUse
  /-- The path. -/
  path : Text
deriving DecidableEq, Repr

/-- The wording of a fault. -/
def FileError.message (error : FileError) : Text :=
  let use : Text := match error.use with
    | .openFile => ", open '"
    | .scanDirectory => ", scandir '"
  match error.fault with
  | .notFound => "ENOENT: no such file or directory" ++ use ++ error.path ++ "'"
  | .notDirectory => "ENOTDIR: not a directory" ++ use ++ error.path ++ "'"
  | .isDirectory => "EISDIR: illegal operation on a directory, read"

namespace FileTree

/-- The entries of a directory. -/
def entries? : FileTree → Option (List (Text × FileTree))
  | directory entries => some entries
  | file _ => none

/-- Follows components from a place with the directories above it, nearest first. -/
def follow (tree : FileTree) (above : List FileTree) : List Text → Except FileFault FileTree
  | [] => .ok tree
  | component :: rest =>
    match tree with
    | file _ => .error .notDirectory
    | directory entries =>
      if component = [] ∨ component = Path.here then follow tree above rest
      else if component = Path.parent then
        match above with
        | [] => follow tree [] rest
        | upper :: higher => follow upper higher rest
      else
        match (entries.find? (·.1 == component)).map (·.2) with
        | none => .error .notFound
        | some inner => follow inner (tree :: above) rest

/-- What an absolute path leads to. -/
def find (tree : FileTree) (path : Text) : Except FileFault FileTree :=
  follow tree [] (path.split Path.separator)

/-- The path leads to something. -/
def contains (tree : FileTree) (path : Text) : Bool := (tree.find path).toBool

/-- The text of the file at a path. -/
def readText (tree : FileTree) (path : Text) : Except FileError Text :=
  match tree.find path with
  | .error fault => .error ⟨fault, .openFile, path⟩
  | .ok (directory _) => .error ⟨.isDirectory, .openFile, path⟩
  | .ok (file bytes) => .ok (Utf8.decode bytes)

/-- A name ends in the given one. -/
def hasExtension (extension name : Text) : Bool := extension.isSuffixOf name

mutual

/-- The paths of the files at or below a place whose names have an extension, given the place's
name. Each directory is visited in the order of its names that is given: whether the first of two
does not come after the second. -/
def filesNamed (precedes : Text → Text → Bool) (extension path name : Text) : FileTree → List Text
  | file _ => if hasExtension extension name then [path] else []
  | directory entries =>
    ((filesInEntries precedes extension path entries).mergeSort
      fun first second => precedes first.1 second.1).flatMap (·.2)

/-- The names of entries, each with the files at or below it. -/
def filesInEntries (precedes : Text → Text → Bool) (extension path : Text) :
    List (Text × FileTree) → List (Text × List Text)
  | [] => []
  | (name, tree) :: rest =>
    (name, filesNamed precedes extension (Path.child path name) name tree) ::
      filesInEntries precedes extension path rest

end

/-- The paths of the files below a directory whose names have an extension. -/
def filesBelow (tree : FileTree) (precedes : Text → Text → Bool) (extension path : Text) :
    Except FileError (List Text) :=
  match tree.find path with
  | .error fault => .error ⟨fault, .scanDirectory, path⟩
  | .ok (file _) => .error ⟨.notDirectory, .scanDirectory, path⟩
  | .ok (directory entries) => .ok (filesNamed precedes extension path [] (directory entries))

/-- Entries in which a tree has a name. -/
def insertEntry (name : Text) (tree : FileTree) (entries : List (Text × FileTree)) :
    List (Text × FileTree) :=
  entries.filter (·.1 != name) ++ [(name, tree)]

/-- The tree with another one put at some components, and with the directories on the way. -/
def graft (part : FileTree) : List Text → FileTree → FileTree
  | [], _ => part
  | name :: rest, tree =>
    let entries := (tree.entries?).getD []
    let inner := ((entries.find? (·.1 == name)).map (·.2)).getD (directory [])
    directory (insertEntry name (graft part rest inner) entries)

end FileTree

end Marginalia
