/-
One pass with its output. The output goes to a sink, which may fill up.
In the text format each fixed file is announced as it is fixed; a full
sink does not stop the pass, and is reported at the end. The other
formats are written when the pass is over.
-/
import EarlyReturn.Pass

namespace EarlyReturn

/-- How a report is written. -/
inductive Format where
  | text
  | json
  | diff
  deriving DecidableEq, Repr

/-- A whole report in a format. A path that is no text has no JSON. -/
def Format.render? : Format → Report → Option Text
  | .text, report => some report.text
  | .json, report => report.response?
  | .diff, report => some report.diff

/-- Where output goes: what has been delivered, and how many bytes are
taken in all if there is a limit. -/
structure Sink where
  delivered : Bytes := []
  limit? : Option Nat := none
  deriving DecidableEq, Repr

namespace Sink

/-- Writes bytes: those that fit are delivered, and the answer says
whether all did. -/
def write (sink : Sink) (bytes : Bytes) : Sink × Bool :=
  match sink.limit? with
  | none => ({ sink with delivered := sink.delivered ++ bytes }, true)
  | some limit =>
    let room := limit - sink.delivered.length
    ({ sink with delivered := sink.delivered ++ bytes.take room },
      bytes.length ≤ room)

/-- What is said about a sink that takes no more. -/
def fullMessage : Text := "sink full".toList

end Sink

/-- Why a pass with its output fails. -/
inductive Execution.Failure where
  | pass (failure : EarlyReturn.Failure)
  | output (cause : Text)
  deriving DecidableEq, Repr

namespace Execution

def Failure.message : Failure → Text
  | .pass failure => failure.message
  | .output cause => "failed to write output: ".toList ++ cause

def Failure.code : Failure → EarlyReturn.Failure.Code
  | .pass failure => failure.code
  | .output _ => .internalError

/-- The response to a failure. -/
def Failure.response (failure : Failure) : Text :=
  Report.errorResponse failure.code failure.message

/-- What an execution leaves behind. -/
structure Result where
  outcome : Except Failure Report
  tree : Tree
  sink : Sink

/-- The outcome of a pass whose output has been delivered or not. -/
def settle (report : Report) (delivered : Bool) : Except Failure Report :=
  if delivered then .ok report else .error (.output Sink.fullMessage)

/-- Announces a fixed file, unless an earlier announcement has not been
delivered. -/
def announce (dryRun : Bool) : Sink × Bool → FixedFile → Sink × Bool
  | (sink, true), file => sink.write (Report.fixedLine dryRun file).bytes
  | (sink, false), _ => (sink, false)

/-- Runs a pass and announces the files as they are fixed. The closing
lines follow if the pass succeeds and all announcements have been
delivered. -/
def announcing (pass : Pass) (tree : Tree) (sink : Sink) : Result :=
  let dryRun := pass.settings.dryRun
  let (run, sink, heard) := pass.runWith (announce dryRun) tree (sink, true)
  match run.report dryRun with
  | .error failure => ⟨.error (.pass failure), run.tree, sink⟩
  | .ok report =>
    if heard then
      let (sink, delivered) := sink.write report.summary.bytes
      ⟨settle report delivered, run.tree, sink⟩
    else ⟨settle report false, run.tree, sink⟩

/-- Runs a pass and writes its report when it is over. A report that
cannot be rendered is not delivered. -/
def reporting (format : Format) (pass : Pass) (tree : Tree) (sink : Sink) :
    Result :=
  let run := pass.run tree
  match run.report pass.settings.dryRun with
  | .error failure => ⟨.error (.pass failure), run.tree, sink⟩
  | .ok report =>
    match format.render? report with
    | none => ⟨.error (.output Report.pathFault), run.tree, sink⟩
    | some rendering =>
      let (sink, delivered) := sink.write rendering.bytes
      ⟨settle report delivered, run.tree, sink⟩

end Execution

/-- Runs one pass and writes its output. -/
def execute (settings : Settings) (format : Format) (tree : Tree)
    (sink : Sink) : Execution.Result :=
  match Pass.ofSettings settings with
  | .error failure => ⟨.error (.pass failure), tree, sink⟩
  | .ok pass =>
    match format with
    | .text => Execution.announcing pass tree sink
    | _ => Execution.reporting format pass tree sink

end EarlyReturn
