/-
The report of a pass, and its three renderings: text for people, JSON
for programs, and the unified diff of the changed lines. A failure has a
JSON rendering too.
-/
import EarlyReturn.Draft
import EarlyReturn.Report.Json

namespace EarlyReturn

/-- A file that was, or in a dry run would be, fixed. -/
structure FixedFile where
  path : Path
  insertions : List InsertionRecord
  edits : List LineEdit
  deriving DecidableEq, Repr

/-- The result of a pass. -/
structure Report where
  filesScanned : Nat
  fixed : List FixedFile
  dryRun : Bool
  deriving DecidableEq, Repr

namespace Report

/-- The version of the JSON layout. -/
def schemaVersion : Text := "1".toList

/-- The changed lines of all fixed files, in report order. -/
def edits (report : Report) : List LineEdit :=
  report.fixed.flatMap (·.edits)

-- ======================================== text

/-- The line for one file. -/
def fixedLine (dryRun : Bool) (file : FixedFile) : Text :=
  (if dryRun then "Would fix: ".toList else "Fixed: ".toList)
    ++ file.path.display ++ ['\n']

/-- The closing lines. -/
def summary (report : Report) : Text :=
  (if report.dryRun then "\nWould fix ".toList else "\nFixed ".toList)
    ++ Text.ofNat report.fixed.length ++ " files\n".toList

/-- The whole text report. -/
def text (report : Report) : Text :=
  report.fixed.flatMap (fixedLine report.dryRun) ++ report.summary

/-- The unified diff of the changed lines. -/
def diff (report : Report) : Text :=
  LineEdit.diff report.edits

-- ======================================== JSON

def insertionJson (record : InsertionRecord) : Json :=
  .record [
    ("rule", .text record.shape.name),
    ("line", .number record.position.line),
    ("col", .number record.position.column)]

/-- A file as JSON; its path has to be valid UTF-8. -/
def fileJson? (file : FixedFile) : Option Json :=
  (Utf8.decode? file.path).map fun path =>
    .record [("path", .text path),
      ("insertions", .list (file.insertions.map insertionJson))]

/-- The response to a successful pass. -/
def response? (report : Report) : Option Text := do
  let files ← report.fixed.mapM fileJson?
  return Json.document (.record [
    ("status", .text "ok".toList),
    ("schema_version", .text schemaVersion),
    ("dry_run", .boolean report.dryRun),
    ("files_scanned", .number report.filesScanned),
    ("fixed_count", .number report.fixed.length),
    ("files", .list files)])

/-- The report itself as JSON. -/
def json? (report : Report) : Option Text := do
  let files ← report.fixed.mapM fileJson?
  return Json.document (.record [
    ("files_scanned", .number report.filesScanned),
    ("fixed", .list files),
    ("dry_run", .boolean report.dryRun)])

/-- Why a report with an ill-formed path has no JSON. -/
def pathFault : Text := "path contains invalid UTF-8 characters".toList

/-- The response to a failed pass. -/
def errorResponse (code : Failure.Code) (message : Text) : Text :=
  Json.document (.record [
    ("status", .text "error".toList),
    ("schema_version", .text schemaVersion),
    ("error", .record
      [("code", .number code.number), ("message", .text message)])])

end Report

end EarlyReturn
