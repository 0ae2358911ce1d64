/-
A draft is one file on its way through the fix: the text as read, the
sites found so far, and the revised text once there is one. The steps
`locate`, `prune` and `revise` may be taken in any order and repeated;
`fix` takes them in turn. `save` puts the revised text in place of the
file, provided that the file is still what was read.
-/
import EarlyReturn.Digest
import EarlyReturn.LineEdit
import EarlyReturn.Tree.Replacement

namespace EarlyReturn

/-- How far a draft has come. -/
inductive Draft.Stage where
  | loaded
  | matched
  | guarded
  | unchanged
  | revised
  | written
  deriving DecidableEq, Repr

def Draft.Stage.name : Draft.Stage → Text
  | .loaded => "loaded".toList
  | .matched => "matched".toList
  | .guarded => "guarded".toList
  | .unchanged => "unchanged".toList
  | .revised => "rewritten".toList
  | .written => "written".toList

/-- A file on its way through the fix. -/
structure Draft where
  path : Path
  /-- The text as read. -/
  text : Text
  /-- The digest of the text as read. -/
  digest : Digest
  /-- The mask of the text, once sites have been looked for. -/
  masked : Bytes
  sites : List Site
  /-- The text with insertions, once there were some to make. -/
  revised : Option Text
  stage : Draft.Stage
  deriving DecidableEq, Repr

/-- Where a keyword was inserted, and for which shape of call. -/
structure InsertionRecord where
  shape : Shape
  position : Position
  deriving DecidableEq, Repr

namespace Draft

/-- A draft of a text that has just been loaded. -/
def new (path : Path) (text : Text) : Draft where
  path := path
  text := text
  digest := .ofBytes text.bytes
  masked := []
  sites := []
  revised := none
  stage := .loaded

/-- A draft of the file at a path. -/
def read (tree : Tree) (path : Path) : Except Failure Draft :=
  match tree.text path with
  | .ok text => .ok (new path text)
  | .error fault => .error (.io path fault)

-- ======================================== steps

/-- Looks for the sites of the text. -/
def locate (draft : Draft) (rules : List Rule) : Draft :=
  let masked := draft.text.mask
  { draft with
    masked
    sites := Site.allMasked draft.text masked rules
    stage := .matched }

/-- Drops the sites that carry the keyword already. -/
def prune (draft : Draft) (rules : List Rule) (keyword : Text) : Draft :=
  { draft with
    sites := Site.uncovered draft.masked draft.sites rules keyword
    stage := .guarded }

/-- Inserts the keyword at the sites. Without a site, or if nothing
changes, an earlier revised text stays. -/
def revise (draft : Draft) (keyword : Text) : Except Failure Draft :=
  if draft.sites.isEmpty then .ok { draft with stage := .unchanged }
  else
    match Insertion.applyAll draft.text
      (Insertion.ofSites draft.sites keyword) with
    | .error fault => .error (.insertion fault)
    | .ok text =>
      if text = draft.text then .ok { draft with stage := .unchanged }
      else .ok { draft with revised := some text, stage := .revised }

/-- Takes the three steps in turn. -/
def fix (draft : Draft) (rules : List Rule) (keyword : Text) :
    Except Failure Draft :=
  ((draft.locate rules).prune rules keyword).revise keyword

-- ======================================== what has changed

/-- Whether there is a revised text that differs from the text read. -/
def isChanged (draft : Draft) : Bool :=
  draft.revised.any (· ≠ draft.text)

/-- The places where the keyword was inserted, in text order. -/
def insertions (draft : Draft) : List InsertionRecord :=
  if draft.isChanged then
    draft.sites.map fun site => ⟨site.shape, site.position⟩
  else []

/-- The lines in which the revised text differs. -/
def lineEdits (draft : Draft) : List LineEdit :=
  match draft.revised with
  | some revised => LineEdit.between draft.path.display draft.text revised
  | none => []

-- ======================================== writing back

/-- What saving did. -/
inductive Outcome where
  | unchanged
  | written
  deriving DecidableEq, Repr

def Outcome.name : Outcome → Text
  | .unchanged => "unchanged".toList
  | .written => "written".toList

/-- Replaces the file by the revised text, if that differs. Nothing is
written if the file is no longer what was read. -/
def saveOn (draft : Draft) (disk : Disk) (tree : Tree) :
    Except Failure Outcome × Draft × Tree :=
  match draft.revised.filter (· ≠ draft.text) with
  | none => (.ok .unchanged, draft, tree)
  | some revised =>
    match disk.attempt .read (tree.file draft.path) with
    | .error fault => (.error (.io draft.path fault), draft, tree)
    | .ok file =>
      if Digest.ofBytes file.data ≠ draft.digest then
        (.error (.fileChanged draft.path), draft, tree)
      else
        match tree.replace disk draft.path revised.bytes with
        | (.error failure, tree) => (.error failure, draft, tree)
        | (.ok (), tree) =>
          (.ok .written, { draft with stage := .written }, tree)

/-- Saves on a disk that takes every write. -/
def save (draft : Draft) (tree : Tree) :
    Except Failure (Outcome × Draft × Tree) :=
  match draft.saveOn .sound tree with
  | (.ok outcome, draft, tree) => .ok (outcome, draft, tree)
  | (.error failure, _, _) => .error failure

end Draft

end EarlyReturn
