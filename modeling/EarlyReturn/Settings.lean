/-
The settings of a pass. Lists that are given empty leave the setting as
it is.
-/
import EarlyReturn.Tree.Selection

namespace EarlyReturn

/-- What a pass is told to do. -/
structure Settings where
  /-- The directory to walk. -/
  root : Path
  /-- Globs for file names. -/
  patterns : List Text
  /-- The keyword to insert. -/
  keyword : Text
  /-- Whether files are left as they are. -/
  dryRun : Bool
  /-- The shapes of call to look for. -/
  shapes : List Shape
  deriving DecidableEq, Repr

namespace Settings

/-- The settings if nothing is said. -/
def default : Settings where
  root := bytesOf "src/modules"
  patterns := ["*.controller.ts".toList]
  keyword := "return".toList
  dryRun := false
  shapes := Shape.all

def withRoot (settings : Settings) (root : Path) : Settings :=
  { settings with root }

/-- Replaces the globs, unless the list is empty. -/
def withPatterns (settings : Settings) (patterns : List Text) : Settings :=
  if patterns.isEmpty then settings else { settings with patterns }

def withDryRun (settings : Settings) (dryRun : Bool) : Settings :=
  { settings with dryRun }

/-- Restricts the shapes, unless the list is empty. Each is kept once,
in the order of all shapes. -/
def withShapes (settings : Settings) (shapes : List Shape) : Settings :=
  if shapes.isEmpty then settings
  else { settings with shapes := Shape.all.filter shapes.contains }

def withKeyword (settings : Settings) (keyword : Text) : Settings :=
  { settings with keyword }

/-- The rules for the shapes. -/
def rules (settings : Settings) : List Rule :=
  settings.shapes.map Rule.ofShape

/-- The files to visit. -/
def selection (settings : Settings) : Except Failure Selection :=
  Selection.ofGlobs settings.patterns

end Settings

end EarlyReturn
