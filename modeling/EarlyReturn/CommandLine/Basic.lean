/-
The command line as a function: arguments and a tree go in, the tree
after the run and what is printed come out.
-/
import EarlyReturn.CommandLine.Options

namespace EarlyReturn.CommandLine

/-- What a run of the program leaves behind: its exit status, what it
printed on the two streams, and the tree. -/
structure Result where
  code : Nat
  output : Bytes
  errors : Text
  tree : Tree

/-- What is printed for the version. -/
def versionText : Text := "returnfix 0.1.0\n".toList

/-- What is printed for help and behind a complaint about arguments. -/
def helpText : Text :=
  ["Insert missing `return` before res.json(...) and next(error) calls",
   "",
   "Options:",
   "  --root <DIR>         directory to scan [default: src/modules]",
   "  --pattern <GLOB>     file-name glob to process (repeatable)",
   "  --rule <RULE>        forward-error or emit-json (repeatable)",
   "  --dry-run            compute fixes without writing files",
   "  --format <FORMAT>    text, json or diff [default: text]",
   "  --log-level <LEVEL>  trace, debug, info, warn or error",
   "  -h, --help           print help",
   "  -V, --version        print version"].flatMap fun line =>
     line.toList ++ ['\n']

/-- The exit status for arguments that cannot be read. -/
def usageCode : Nat := Failure.Code.invalidArguments.number

namespace Result

/-- The end of a run that printed `output` and failed. The failure is
reported in the output if that is JSON and as an error line if not. -/
def failed (format : Format) (failure : Execution.Failure) (output : Bytes)
    (tree : Tree) : Result :=
  let code := failure.code.number
  if format = .json then ⟨code, output ++ failure.response.bytes, [], tree⟩
  else ⟨code, output, "error: ".toList ++ failure.message ++ ['\n'], tree⟩

end Result

/-- Runs a pass as the options say, with unlimited output. -/
def runOptions (options : Options) (tree : Tree) : Result :=
  let format := options.format.getD .text
  let result := execute options.settings format tree {}
  match result.outcome with
  | .ok _ => ⟨0, result.sink.delivered, [], result.tree⟩
  | .error failure => .failed format failure result.sink.delivered result.tree

/-- Does what is asked for, on a tree. -/
def run (request : Request) (tree : Tree) : Result :=
  match request with
  | .run options => runOptions options tree
  | .version => ⟨0, versionText.bytes, [], tree⟩
  | .help => ⟨0, helpText.bytes, [], tree⟩

/-- The end of a run whose arguments cannot be read. -/
def usageError (tree : Tree) : Result :=
  ⟨usageCode, [], "error: invalid arguments\n\n".toList ++ helpText, tree⟩

/-- Runs the program on a tree; nothing if the arguments cannot be
read. -/
def run? (arguments : List Text) (tree : Tree) : Option Result :=
  (read? arguments {}).map fun request => run request tree

end EarlyReturn.CommandLine
