/-
Paths. A path is a string of bytes, kept as it was given; nothing is
normalised. Where a path is shown, ill-formed UTF-8 in it is replaced.
-/
import EarlyReturn.Text.Utf8

namespace EarlyReturn

/-- The name of an entry of a directory. -/
abbrev Name := Bytes

/-- A path as given: names separated by slashes. -/
abbrev Path := Bytes

namespace Path

/-- The name of the directory itself. -/
def here : Name := [Byte.dot]

/-- The name of the directory above. -/
def above : Name := [Byte.dot, Byte.dot]

/-- The most bytes that a path can have. -/
def maxLength : Nat := 4095

/-- The parts between the slashes, empty ones included. A path that
starts or ends with a slash has an empty first or last part. -/
def parts : Path → List Name
  | [] => [[]]
  | b :: rest =>
    if b == Byte.slash then [] :: parts rest
    else
      match parts rest with
      | [] => [[b]]
      | part :: more => (b :: part) :: more

/-- The path of an entry of a directory. -/
def join (folder : Path) (name : Name) : Path :=
  if folder.getLast?.all (· == Byte.slash) then folder ++ name
  else folder ++ Byte.slash :: name

/-- The name that a path ends with, apart from slashes and dots for the
directory itself. A path that ends with the directory above has none. -/
def fileName? (path : Path) : Option Name :=
  match (path.parts.filter fun part => part != [] && part != here).getLast? with
  | some name => if name == above then none else some name
  | none => none

/-- The directory of what a path names: the path up to its last name, or
the directory itself if there is nothing before that name. -/
def folder (path : Path) : Path :=
  let idle (part : Name) : Bool := part == [] || part == here
  let before := (path.parts.reverse.dropWhile idle).tail.dropWhile idle
  if before = [] then
    if path.head? = some Byte.slash then [Byte.slash] else here
  else [Byte.slash].intercalate before.reverse

/-- The path as text. -/
def display (path : Path) : Text :=
  Utf8.decodeLossy path

end Path

namespace Name

/-- The most bytes that a name can have. -/
def maxLength : Nat := 255

/-- Whether an entry can have this name. The names of the directory
itself and of the one above are taken, and slashes and zero bytes end
names. -/
def isProper (name : Name) : Bool :=
  name != [] && name != Path.here && name != Path.above
    && !name.contains Byte.slash && !name.contains Byte.zero
    && name.length ≤ maxLength

end Name

end EarlyReturn
