/-
The program. It reads the selected part of a directory into a tree, runs
the command line on it, prints what that prints and writes the changed
files back. Everything that is decided is decided by
`EarlyReturn.CommandLine`.
-/
import EarlyReturn.CommandLine.Basic

namespace EarlyReturn.Main

/-- Reads the files of a directory that a selection can visit. Links are
left out, and so are directories that are not entered. Modes cannot be
read here; every file gets the one that new files have. -/
partial def load (selection : Selection) (folder : String) : IO Listing := do
  let mut listing := Listing.empty
  for entry in ← (← IO.FS.realPath folder).readDir do
    let name := bytesOf entry.fileName
    let path := String.ofList (Path.join (bytesOf folder) name).display
    match (← entry.path.symlinkMetadata).type with
    | .dir =>
      if !selection.passesBy (bytesOf folder) name then
        listing := listing.insert name (.folder (← load selection path))
    | .file =>
      if selection.fits name then
        let data ← IO.FS.readBinFile path
        listing := listing.insert name (.file ⟨data.toList, Tree.defaultMode⟩)
    | _ => pure ()
  return listing

/-- The tree that a pass with these settings looks at: the directory it
starts from, at its path, and nothing else. -/
def loadTree (settings : Settings) : IO Tree := do
  let working := Path.parts (bytesOf (← IO.currentDir).toString)
  let bare := Tree.bare working
  let .ok selection := settings.selection | return bare
  let some root := Utf8.decode? settings.root | return bare
  let root := String.ofList root
  let isFolder ← try (← IO.FS.realPath root).isDir catch _ => pure false
  if !isFolder then return bare
  let listing ← load selection root
  if h : listing.WellFormed then
    match bare.mount settings.root listing h with
    | .ok tree => return tree
    | .error _ => return bare
  else return bare

/-- The files below a directory, with the paths under which a pass
visits them. -/
def filesBelow (root : Path) (tree : Tree) : List (Path × File) :=
  match tree.folder? root with
  | some listing => listing.files root
  | none => []

/-- What the lowest three bits of a mode allow. -/
def access (bits : Nat) : IO.AccessRight where
  read := bits.testBit 2
  write := bits.testBit 1
  execution := bits.testBit 0

/-- What a mode allows the owner of a file, its group and all others. -/
def rights (mode : Nat) : IO.FileRight where
  user := access (mode >>> 6)
  group := access (mode >>> 3)
  other := access mode

/-- Replaces a file by way of a temporary one beside it, as `Tree.replace`
does. The temporary file is new, and it is removed if a step fails. -/
def replaceFile (path : Path) (new : File) : IO Unit := do
  let own := Disk.sound.temporaryName ++ path.fileName?.getD []
  let temporary := String.ofList (path.folder.join own).display
  let handle ← IO.FS.Handle.mk temporary .writeNew
  try
    handle.write new.data.toByteArray
    handle.flush
    IO.setAccessRights temporary (rights new.mode)
    IO.FS.rename temporary (String.ofList path.display)
  catch failure =>
    IO.FS.removeFile temporary
    throw failure

/-- Replaces the files whose content a run has changed, unless a file is
no longer what was read. The first such file is the answer. -/
def saveTree (root : Path) (before after : Tree) : IO (Option Failure) := do
  let files := (filesBelow root before).zip (filesBelow root after)
  for ((path, old), (_, new)) in files do
    if old.data ≠ new.data then
      let current ← IO.FS.readBinFile (String.ofList path.display)
      if current.toList ≠ old.data then return some (.fileChanged path)
      replaceFile path new
  return none

/-- Runs a pass on the directory that the options name. -/
def runPass (options : CommandLine.Options) : IO CommandLine.Result := do
  let settings := options.settings
  let tree ← loadTree settings
  let result := CommandLine.runOptions options tree
  match ← saveTree settings.root tree result.tree with
  | some failure =>
    let format := options.format.getD .text
    return .failed format (.pass failure) result.output tree
  | none => return result

end EarlyReturn.Main

open EarlyReturn in
def main (arguments : List String) : IO UInt32 := do
  let result ←
    match CommandLine.read? (arguments.map String.toList) {} with
    | some (.run options) => Main.runPass options
    | some request => pure (CommandLine.run request (.bare []))
    | none => pure (CommandLine.usageError (.bare []))
  let output ← IO.getStdout
  output.write result.output.toByteArray
  output.flush
  (← IO.getStderr).putStr (String.ofList result.errors)
  return UInt32.ofNat result.code
