/-
A pass over a tree: every selected file is read, fixed and, unless it is
a dry run, written back. The walk and the writing take turns, each file
being done with before the walk goes on. The first failure ends the
pass; what was written before stays.
-/
import EarlyReturn.Report.Basic
import EarlyReturn.Settings

namespace EarlyReturn

/-- A pass that is ready to run: its settings, with the globs read. -/
structure Pass where
  settings : Settings
  rules : List Rule
  selection : Selection
  deriving DecidableEq, Repr

/-- What a pass has done: the tree after it, the number of files it
looked at, the files it fixed in order, and why it ended early if it
did. -/
structure Pass.Run where
  tree : Tree
  scanned : Nat
  fixed : List FixedFile
  failure : Option Failure
  deriving DecidableEq, Repr

namespace Pass

/-- Gets a pass ready. It fails on a glob that cannot be read. -/
def ofSettings (settings : Settings) : Except Failure Pass := do
  let selection ← settings.selection
  return { settings, rules := settings.rules, selection }

/-- The files that the pass would visit in a tree that stays as it is,
in order. -/
def files (pass : Pass) (tree : Tree) : List Path :=
  pass.selection.find tree pass.settings.root

/-- Fixes a text in memory. -/
def fixText (pass : Pass) (path : Path) (text : Text) : Except Failure Draft :=
  (Draft.new path text).fix pass.rules pass.settings.keyword

/-- Reads, fixes and, unless it is a dry run, writes one file. -/
def fixFile (pass : Pass) (path : Path) (tree : Tree) :
    Except Failure (Option FixedFile × Tree) := do
  let draft ← Draft.read tree path
  let draft ← draft.fix pass.rules pass.settings.keyword
  if draft.isChanged then
    let fixed :=
      { path, insertions := draft.insertions, edits := draft.lineEdits }
    if pass.settings.dryRun then return (some fixed, tree)
    else
      let (_, _, tree) ← draft.save tree
      return (some fixed, tree)
  else return (none, tree)

/-- A run that has not come to any file yet. -/
def Run.start (tree : Tree) : Run :=
  { tree, scanned := 0, fixed := [], failure := none }

/-- Visits one file, and tells of it if it was fixed: `told` is what has
come of telling so far. After a failure nothing is visited any more. -/
def visitWith {α : Type} (pass : Pass) (tell : α → FixedFile → α) :
    Run × α → Path → Run × α
  | (run, told), path =>
    match run.failure with
    | some _ => (run, told)
    | none =>
      match pass.fixFile path run.tree with
      | .error failure =>
        ({ run with scanned := run.scanned + 1, failure := some failure }, told)
      | .ok (fixed?, tree) =>
        ({ run with
            tree, scanned := run.scanned + 1
            fixed := run.fixed ++ fixed?.toList },
          fixed?.toList.foldl tell told)

/-- Goes through the entries of a directory, as they were when it was
listed. `enter` goes through a directory among them. -/
def visitEntries {α : Type} (pass : Pass) (tell : α → FixedFile → α)
    (enter : Path → Location → Run × α → Run × α) (path : Path)
    (place : Location) :
    Listing → Run × α → Run × α
  | .empty, state => state
  | .file name _ rest, state =>
    pass.visitEntries tell enter path place rest
      (if pass.selection.fits name then
          pass.visitWith tell state (path.join name)
        else state)
  | .link _ _ rest, state => pass.visitEntries tell enter path place rest state
  | .folder name _ rest, state =>
    pass.visitEntries tell enter path place rest
      (if pass.selection.passesBy path name then state
      else enter (path.join name) (place ++ [name]) state)

/-- Lists the directory at a place of the tree, as it is by then, and
goes through it. At most `levels` directories are open at a time. -/
def visitFolder {α : Type} (pass : Pass) (tell : α → FixedFile → α) :
    (levels : Nat) → Path → Location → Run × α → Run × α
  | 0, _, _, state => state
  | levels + 1, path, place, state =>
    match state.1.tree.at? place with
    | some (.folder inside) =>
      pass.visitEntries tell (pass.visitFolder tell levels) path place inside
        state
    | _ => state

/-- Runs the pass over a tree, and tells of each file as it is fixed. A
directory is listed when the walk comes to it, and so after the files
before it have been written. A pass makes no directories, so those of the
tree at its start are levels enough. -/
def runWith {α : Type} (pass : Pass) (tell : α → FixedFile → α) (tree : Tree)
    (told : α) : Run × α :=
  match tree.locate .follow pass.settings.root with
  | .ok place =>
    pass.visitFolder tell tree.top.levels pass.settings.root place
      (Run.start tree, told)
  | .error _ => (Run.start tree, told)

/-- Runs the pass over a tree and tells nobody. -/
def run (pass : Pass) (tree : Tree) : Run :=
  (pass.runWith (fun told _ => told) tree ()).1

/-- The report of a run that came to its end, or the failure that ended
it. -/
def Run.report (run : Run) (dryRun : Bool) : Except Failure Report :=
  match run.failure with
  | some failure => .error failure
  | none => .ok { filesScanned := run.scanned, fixed := run.fixed, dryRun }

end Pass

end EarlyReturn
