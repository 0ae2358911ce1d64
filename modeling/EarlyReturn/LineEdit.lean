/-
Line edits, and the unified diff that shows them. Each edit is a hunk of
one line. Files stand in order of their names, the edits of a file in
order of their lines, and carriage returns at the end of a line are not
shown.
-/
import EarlyReturn.StableSort
import EarlyReturn.Text.Basic

namespace EarlyReturn

/-- A changed line of a file, counted from 1, without its newline. -/
structure LineEdit where
  file : Text
  line : Nat
  old : Text
  new : Text
  deriving DecidableEq, Repr

namespace LineEdit

/-- The edits that lead from one text to another line by line. -/
def between (file : Text) (old new : Text) : List LineEdit :=
  (old.lines.zip new.lines).zipIdx.filterMap fun ((oldLine, newLine), index) =>
    if oldLine = newLine then none
    else some ⟨file, index + 1, oldLine, newLine⟩

/-- A line as shown: without carriage returns at its end. -/
def shown (line : Text) : Text :=
  (line.reverse.dropWhile (· == '\r')).reverse

/-- The two header lines of a file. -/
def header (file : Text) : Text :=
  "--- a/".toList ++ file ++ "\n+++ b/".toList ++ file ++ ['\n']

/-- One edit as a hunk. -/
def hunk (edit : LineEdit) : Text :=
  "@@ -".toList ++ Text.ofNat edit.line ++ ",1 +".toList ++ Text.ofNat edit.line
    ++ ",1 @@\n-".toList ++ shown edit.old ++ "\n+".toList ++ shown edit.new
    ++ ['\n']

/-- Puts an edit behind the others of its file. Files stand in ascending
order of their names. -/
def enter (edit : LineEdit) :
    List (Text × List LineEdit) → List (Text × List LineEdit)
  | [] => [(edit.file, [edit])]
  | (file, edits) :: rest =>
    if file < edit.file then (file, edits) :: enter edit rest
    else if file = edit.file then (file, edits ++ [edit]) :: rest
    else (edit.file, [edit]) :: (file, edits) :: rest

/-- The edits of each file, in the order in which they were given. -/
def byFile (edits : List LineEdit) : List (Text × List LineEdit) :=
  edits.foldl (fun groups edit => enter edit groups) []

/-- The edits of a file by line. -/
def byLine (edits : List LineEdit) : List LineEdit :=
  stableSort (fun a b => a.line ≤ b.line) edits

/-- The unified diff of edits, given in any order. -/
def diff (edits : List LineEdit) : Text :=
  (byFile edits).flatMap fun group =>
    header group.1 ++ (byLine group.2).flatMap hunk

end LineEdit

end EarlyReturn
