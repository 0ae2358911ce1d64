/-
Replacing a file. The new content is written to a temporary file beside
the old one, which takes the place of the old one when it is complete.
Every step on the way can fail; which of them do is up to the disk. A
temporary file that has not taken its place is removed again.
-/
import EarlyReturn.Failure

namespace EarlyReturn

/-- The steps in which a file is compared and replaced. -/
inductive Disk.Step where
  /-- The file is read. -/
  | read
  /-- Its mode is looked up. -/
  | inspect
  /-- The temporary file is made. -/
  | create
  /-- The content is written to it. -/
  | fill
  /-- What was written reaches the disk. -/
  | sync
  /-- The temporary file gets its mode. -/
  | protect
  /-- It takes the place of the file. -/
  | rename
  deriving DecidableEq, Repr

/-- How a disk takes a replacement: the name that it gives the temporary
file, and the faults of the steps that fail. -/
structure Disk where
  temporaryName : Name
  fault? : Disk.Step → Option Tree.Fault

namespace Disk

/-- A disk on which no step fails. -/
def sound : Disk where
  temporaryName := bytesOf ".tmp"
  fault? _ := none

/-- What a step comes to, unless the disk fails at it. -/
def attempt {α : Type} (disk : Disk) (step : Step)
    (result : Except Tree.Fault α) : Except Tree.Fault α :=
  match disk.fault? step with
  | some fault => .error fault
  | none => result

/-- A step that changes the tree, with the path that is named if it
fails. -/
structure Task where
  step : Step
  path : Path
  change : Tree → Except Tree.Fault Tree

/-- Does some tasks in turn. The first that fails is the last, and what
was done before stays done. -/
def carryOut (disk : Disk) : List Task → Tree → Except Failure Unit × Tree
  | [], tree => (.ok (), tree)
  | task :: more, tree =>
    match disk.attempt task.step (task.change tree) with
    | .error fault => (.error (.io task.path fault), tree)
    | .ok tree => disk.carryOut more tree

end Disk

namespace Tree

/-- The mode of a temporary file that has just been made. -/
def temporaryMode : Nat := 0o600

/-- Makes a temporary file with nothing in it. -/
def addTemporary (tree : Tree) (path : Path) : Tree :=
  { tree with
    temporaries := ⟨path, ⟨[], temporaryMode⟩⟩ :: tree.temporaries }

/-- Changes the newest temporary file. -/
def changeTemporary (tree : Tree) (change : File → File) : Tree :=
  { tree with
    temporaries := tree.temporaries.modifyHead fun temporary =>
      { temporary with content := change temporary.content } }

/-- Removes the newest temporary file. -/
def dropTemporary (tree : Tree) : Tree :=
  { tree with temporaries := tree.temporaries.tail }

/-- Puts the newest temporary file at a place, where it is no longer a
temporary one. -/
def placeTemporary (tree : Tree) (location : Location) : Tree :=
  match tree.temporaries with
  | [] => tree
  | temporary :: _ =>
    tree.dropTemporary.setAt location (.file temporary.content) trivial

/-- Fills the newest temporary file, gives it a mode and puts it in the
place of what a path names. A link is replaced itself, and the file behind
it stays. -/
def fillTasks (temporary path : Path) (new : File) : List Disk.Task :=
  [⟨.fill, temporary, fun tree =>
      .ok (tree.changeTemporary ({ · with data := new.data }))⟩,
    ⟨.sync, temporary, .ok⟩,
    ⟨.protect, temporary, fun tree =>
      .ok (tree.changeTemporary ({ · with mode := new.mode }))⟩,
    ⟨.rename, path, fun tree =>
      (tree.locate .keep path).map tree.placeTemporary⟩]

/-- Replaces what a path names by a regular file with new content. The
mode is that of the file which the path leads to. -/
def replace (tree : Tree) (disk : Disk) (path : Path) (data : Bytes) :
    Except Failure Unit × Tree :=
  match disk.attempt .inspect (tree.file path) with
  | .error fault => (.error (.io path fault), tree)
  | .ok old =>
    let temporary := path.folder.join disk.temporaryName
    match disk.attempt .create (.ok (tree.addTemporary temporary)) with
    | .error fault => (.error (.io path.folder fault), tree)
    | .ok made =>
      match disk.carryOut (fillTasks temporary path ⟨data, old.mode⟩) made with
      | (.ok (), tree) => (.ok (), tree)
      | (.error failure, tree) => (.error failure, tree.dropTemporary)

end Tree

end EarlyReturn
