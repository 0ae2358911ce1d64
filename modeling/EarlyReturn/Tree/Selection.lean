/-
Which files of a tree a pass visits. A selection has globs for file
names and names of directories that are not entered; hidden directories
are never entered, and neither are those whose path is too long for them
to be listed. Links are neither visited nor followed, but the directory
where the walk starts may be reached through one.
-/
import EarlyReturn.Failure
import EarlyReturn.Glob.Parser

namespace EarlyReturn

/-- The files to visit: patterns for their names, and the directories to
leave out. -/
structure Selection where
  patterns : List Glob.Pattern
  excluded : List Text
  deriving DecidableEq, Repr

namespace Selection

/-- Directories that are left out in any case. -/
def alwaysExcluded : List Text :=
  ["node_modules".toList, "dist".toList, "build".toList, "coverage".toList]

/-- Reads one glob. -/
def pattern (glob : Text) : Except Failure Glob.Pattern :=
  match Glob.parse glob with
  | .ok pattern => .ok pattern
  | .error fault =>
    .error (.invalidPattern glob
      ("error parsing glob '".toList ++ glob ++ "': ".toList ++ fault.message))

/-- The selection for a list of globs, read in order. -/
def ofGlobs (globs : List Text) : Except Failure Selection := do
  let patterns ← globs.mapM pattern
  return { patterns, excluded := alwaysExcluded }

/-- The selection with one more directory left out. -/
def exclude (selection : Selection) (name : Text) : Selection :=
  { selection with excluded := selection.excluded ++ [name] }

/-- Whether a file name fits one of the patterns. -/
def fits (selection : Selection) (name : Name) : Bool :=
  selection.patterns.any fun pattern => pattern.fits name

/-- Whether the file name of a path fits one of the patterns. -/
def accepts (selection : Selection) (path : Path) : Bool :=
  path.fileName?.any selection.fits

/-- Whether a directory below the start is left out. -/
def leavesOut (selection : Selection) (name : Name) : Bool :=
  let shown := Utf8.decodeLossy name
  shown.head? == some '.' || selection.excluded.contains shown

/-- Whether a walk passes by a directory below its start: it is left out,
or it cannot be listed. -/
def passesBy (selection : Selection) (path : Path) (name : Name) : Bool :=
  selection.leavesOut name || Path.maxLength < (path.join name).length

/-- The selected files in a listing, with their paths: every directory
is visited in order of the names in it, files and directories mixed. -/
def walk (selection : Selection) : Path → Listing → List Path
  | _, .empty => []
  | path, .file name _ rest =>
    if selection.fits name then path.join name :: selection.walk path rest
    else selection.walk path rest
  | path, .link _ _ rest => selection.walk path rest
  | path, .folder name inside rest =>
    (if selection.passesBy path name then []
      else selection.walk (path.join name) inside)
      ++ selection.walk path rest

/-- The selected files below a directory. A path that leads to no
directory has none. -/
def find (selection : Selection) (tree : Tree) (root : Path) : List Path :=
  match tree.folder? root with
  | some listing => selection.walk root listing
  | none => []

end Selection

end EarlyReturn
