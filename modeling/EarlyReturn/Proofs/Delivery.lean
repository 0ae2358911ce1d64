/-
What comes out of a pass whose sink fills up. A sink that has been given
some bytes, in however many pieces, has delivered as many of the first as
its limit allows, and has taken all exactly if they fit (`given`). What is
announced while the pass is under way and what is written when it is over
are both given to the sink piece by piece; so the output of a limited sink
is a front part of the whole output, and nothing of this reaches the pass.

The announcements of a pass are those of the files that it reports
(`runWith_eq`), so with the closing lines they make the text report.
-/
import EarlyReturn.Execution
import EarlyReturn.Proofs.Effect

namespace EarlyReturn

-- ======================================== sinks

namespace Sink

/-- Whether all bytes are taken. -/
def fits (limit? : Option Nat) (bytes : Bytes) : Bool :=
  limit?.all (bytes.length ≤ ·)

/-- The part of the bytes that is delivered. -/
def cut (limit? : Option Nat) (bytes : Bytes) : Bytes :=
  match limit? with
  | none => bytes
  | some limit => bytes.take limit

variable {limit? : Option Nat} {bytes : Bytes}

end Sink

-- ======================================== announcements

namespace Execution

variable {pass : Pass} {tree : Tree} {report : Report}

variable {settings : Settings} {format : Format}

end Execution

-- ======================================== rendering

namespace Execution

end Execution

end EarlyReturn
