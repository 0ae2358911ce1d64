/-
Failures: why a pass stopped, the wording shown to the user, and the
exit code. A failure of the pass itself has one of three codes; a report
that cannot be delivered is an internal error.
-/
import EarlyReturn.Insertion
import EarlyReturn.Tree.Access

namespace EarlyReturn

/-- The classes of failures that callers can tell apart. -/
inductive Failure.Code where
  | invalidArguments
  | applyError
  | internalError
  deriving DecidableEq, Repr

namespace Failure.Code

/-- The code as exit status. -/
def number : Failure.Code → Nat
  | .invalidArguments => 2
  | .applyError => 4
  | .internalError => 10

def name : Failure.Code → Text
  | .invalidArguments => "InvalidArguments".toList
  | .applyError => "ApplyError".toList
  | .internalError => "InternalError".toList

end Failure.Code

/-- Why a pass, or setting one up, fails. -/
inductive Failure where
  /-- A file cannot be read or written. -/
  | io (path : Path) (fault : Tree.Fault)
  /-- A glob for file names cannot be read. -/
  | invalidPattern (pattern reason : Text)
  /-- A name is not the name of a rule. -/
  | invalidRule (rule reason : Text)
  /-- The insertions do not fit the text. -/
  | insertion (fault : Insertion.Fault)
  /-- The file is no longer what was read. -/
  | fileChanged (path : Path)
  deriving DecidableEq, Repr

namespace Failure

def message : Failure → Text
  | .io path fault =>
    "IO error on ".toList ++ path.display ++ ": ".toList ++ fault.message
  | .invalidPattern pattern reason =>
    "invalid pattern '".toList ++ pattern ++ "': ".toList ++ reason
  | .invalidRule rule reason =>
    "invalid rule ".toList ++ rule ++ ": ".toList ++ reason
  | .insertion fault => "patch error: ".toList ++ fault.message
  | .fileChanged path =>
    "file changed on disk since it was read: ".toList ++ path.display

def code : Failure → Code
  | .io _ _ => .applyError
  | .invalidPattern _ _ => .invalidArguments
  | .invalidRule _ _ => .invalidArguments
  | .insertion _ => .internalError
  | .fileChanged _ => .applyError

/-- The failure for a name that no rule has. -/
def unknownRule (name : Text) : Failure :=
  .invalidRule name "expected forward-error or emit-json".toList

end Failure

/-- The shape of a given name, or why there is none. -/
def Shape.ofName (name : Text) : Except Failure Shape :=
  match Shape.ofName? name with
  | some shape => .ok shape
  | none => .error (.unknownRule name)

end EarlyReturn
