/-
Paths in trees: what a path leads to, and reading and changing what it
leads to. Symbolic links on the way are followed, at most forty of them;
the link that a path itself names is followed for reading and writing
and is the thing itself for replacing and removing.

Of several faults of one path, a zero byte comes first, then the length
of the whole path; all others are met on the way, the nearest first.
-/
import EarlyReturn.Tree.Basic

namespace EarlyReturn

/-- Why a file cannot be read or written. -/
inductive Tree.Fault where
  | zeroByte
  | nameTooLong
  | notFound
  | notFolder
  | isFolder
  | tooManyLinks
  | notText
  | other (message : Text)
  deriving DecidableEq, Repr

namespace Tree

def Fault.message : Fault → Text
  | .zeroByte => "file name contained an unexpected NUL byte".toList
  | .nameTooLong => "File name too long (os error 36)".toList
  | .notFound => "No such file or directory (os error 2)".toList
  | .notFolder => "Not a directory (os error 20)".toList
  | .isFolder => "Is a directory (os error 21)".toList
  | .tooManyLinks => "Too many levels of symbolic links (os error 40)".toList
  | .notText => "stream did not contain valid UTF-8".toList
  | .other message => message

-- ======================================== following a path

/-- What becomes of the last name of a path: if it is a link, the link
is followed or kept; if nothing has the name, it is free to be created
or missing. -/
inductive Ending where
  | follow
  | keep
  | create
  deriving DecidableEq, Repr

/-- Goes along the parts of a path from a place, given innermost name
first. A link on the way is handed to `onLink`, with the place where it
stands and the parts that it and the rest of the path give. -/
def descend (tree : Tree) (ending : Ending)
    (onLink : Location → List Name → Except Fault Location) :
    (place : Location) → (parts : List Name) → Except Fault Location
  | place, [] => .ok place
  | place, part :: more =>
    match tree.at? place.reverse with
    | some (.folder inside) =>
      if part = [] ∨ part = Path.here then descend tree ending onLink place more
      else if part = Path.above then descend tree ending onLink place.tail more
      else if Name.maxLength < part.length then .error .nameTooLong
      else
        match inside.find? part with
        | none =>
          if more = [] ∧ ending = .create then .ok (part :: place)
          else .error .notFound
        | some (.link target) =>
          if more = [] ∧ ending = .keep then .ok (part :: place)
          else onLink (if target.head? = some Byte.slash then [] else place)
            (target.parts ++ more)
        | some _ => descend tree ending onLink (part :: place) more
    | some _ => .error .notFolder
    | none => .error .notFound

/-- Goes along the parts of a path and follows at most `links` links. -/
def descendLinks (tree : Tree) (ending : Ending) :
    (links : Nat) → Location → List Name → Except Fault Location
  | 0 => descend tree ending fun _ _ => .error .tooManyLinks
  | links + 1 => descend tree ending (descendLinks tree ending links)

/-- The most links that are followed on one path. -/
def maxLinks : Nat := 40

/-- Where a path starts, innermost name first. -/
def origin (tree : Tree) (path : Path) : Location :=
  if path.head? = some Byte.slash then [] else tree.working.reverse

/-- Refuses a path that leads nowhere in any tree. -/
def checkPath (path : Path) : Except Fault Unit :=
  if path.contains Byte.zero then .error .zeroByte
  else if Path.maxLength < path.length then .error .nameTooLong
  else if path = [] then .error .notFound
  else .ok ()

/-- The place of the entry that a path leads to. -/
def locate (tree : Tree) (ending : Ending) (path : Path) :
    Except Fault Location := do
  checkPath path
  let place ← descendLinks tree ending maxLinks (tree.origin path) path.parts
  return place.reverse

-- ======================================== reading

/-- The regular file that a path leads to. -/
def file (tree : Tree) (path : Path) : Except Fault File := do
  let location ← tree.locate .follow path
  match tree.at? location with
  | some (.file file) => .ok file
  | some (.folder _) => .error .isFolder
  | _ => .error .notFound

/-- The text of the file that a path leads to. -/
def text (tree : Tree) (path : Path) : Except Fault Text := do
  let file ← tree.file path
  match Utf8.decode? file.data with
  | some text => .ok text
  | none => .error .notText

/-- The listing of the directory that a path leads to. -/
def folder? (tree : Tree) (path : Path) : Option Listing :=
  match tree.locate .follow path with
  | .ok location =>
    match tree.at? location with
    | some (.folder inside) => some inside
    | _ => none
  | .error _ => none

-- ======================================== changing

/-- Makes the directories along the parts of a path that do not exist
yet, and gives the place of the last one, innermost name first. -/
def makeFolders :
    (place : Location) → (parts : List Name) → Tree →
      Except Fault (Tree × Location)
  | place, [], tree => .ok (tree, place)
  | place, part :: more, tree =>
    match descendLinks tree .create maxLinks place [part] with
    | .error fault => .error fault
    | .ok inner =>
      match tree.at? inner.reverse with
      | some (.folder _) => makeFolders inner more tree
      | some _ => .error .notFolder
      | none =>
        makeFolders inner more (tree.setAt inner.reverse (.folder .empty) rfl)

/-- Makes a directory, and the missing ones on the way, and gives its
place. -/
def makeFolder (tree : Tree) (path : Path) :
    Except Fault (Tree × Location) := do
  checkPath path
  let (tree, place) ← makeFolders (tree.origin path) path.parts tree
  return (tree, place.reverse)

/-- Makes a path lead to a directory with the given entries. -/
def mount (tree : Tree) (path : Path) (inside : Listing)
    (h : inside.WellFormed) : Except Fault Tree := do
  let (tree, location) ← tree.makeFolder path
  return if location = [] then { tree with top := inside, wellFormed := h }
    else tree.setAt location (.folder inside) h

/-- Makes the missing directories on the way to what a path names, and
gives the place of the innermost, innermost name first. -/
def makeWay (tree : Tree) (path : Path) : Except Fault (Tree × Location) := do
  checkPath path
  makeFolders (tree.origin path) path.parts.dropLast tree

/-- The mode of a new file if none is given. -/
def defaultMode : Nat := 0o644

/-- Writes a file; missing directories are made. A file that is there
already keeps its mode unless one is given. -/
def write (tree : Tree) (path : Path) (data : Bytes) (mode? : Option Nat) :
    Except Fault Tree := do
  let (tree, _) ← tree.makeWay path
  let location ← tree.locate .create path
  match tree.at? location with
  | none =>
    return tree.setAt location (.file ⟨data, mode?.getD defaultMode⟩) trivial
  | some (.file file) =>
    return tree.setAt location (.file ⟨data, mode?.getD file.mode⟩) trivial
  | some _ => .error .isFolder

/-- Makes a symbolic link; missing directories are made. -/
def makeLink (tree : Tree) (path : Path) (target : Path) :
    Except Fault Tree := do
  let (tree, place) ← tree.makeWay path
  return tree.setAt (path.parts.getLast?.toList ++ place).reverse (.link target)
    trivial

/-- Removes a file, a link or a whole directory. -/
def remove (tree : Tree) (path : Path) : Except Fault Tree := do
  let location ← tree.locate .keep path
  return tree.removeAt location

end Tree

end EarlyReturn
