import EarlyReturn.Byte
import EarlyReturn.Text.Basic
import EarlyReturn.Text.Utf8
import EarlyReturn.Text.Word
import EarlyReturn.Text.WhiteSpace
import EarlyReturn.Text.Position
import EarlyReturn.Span
import EarlyReturn.StableSort
import EarlyReturn.Script.Mask
import EarlyReturn.Script.Bracket
import EarlyReturn.Script.Rule
import EarlyReturn.Script.Call
import EarlyReturn.Script.Statement
import EarlyReturn.Script.Keyword
import EarlyReturn.Script.Site
import EarlyReturn.Insertion
import EarlyReturn.LineEdit
import EarlyReturn.Digest
import EarlyReturn.Tree.Path
import EarlyReturn.Tree.Listing
import EarlyReturn.Tree.Basic
import EarlyReturn.Tree.Access
import EarlyReturn.Glob.Pattern
import EarlyReturn.Glob.Parser
import EarlyReturn.Failure
import EarlyReturn.Tree.Replacement
import EarlyReturn.Draft
import EarlyReturn.Report.Json
import EarlyReturn.Report.Basic
import EarlyReturn.Tree.Selection
import EarlyReturn.Settings
import EarlyReturn.Pass
import EarlyReturn.Execution
import EarlyReturn.CommandLine.Options
import EarlyReturn.CommandLine.Basic
import EarlyReturn.Main
import EarlyReturn.Proofs.Grammar
import EarlyReturn.Proofs.Rerun
import EarlyReturn.Proofs.Modes
import EarlyReturn.Proofs.Steps
import EarlyReturn.Proofs.Places
import EarlyReturn.Proofs.Effect
import EarlyReturn.Proofs.Replacing
import EarlyReturn.Proofs.Saving
import EarlyReturn.Proofs.Outermost
import EarlyReturn.Proofs.Rehearsal
import EarlyReturn.Proofs.Stages
import EarlyReturn.Proofs.Delivery
import EarlyReturn.Proofs.LineEdits
import EarlyReturn.Proofs.Substitution
import EarlyReturn.Proofs.Continuation
import EarlyReturn.Proofs.LineBreaks
import EarlyReturn.Proofs.Lookback
import EarlyReturn.Proofs.Discovery
import EarlyReturn.Proofs.UnifiedDiff
import EarlyReturn.Proofs.Brackets
import EarlyReturn.Proofs.Occurrences
