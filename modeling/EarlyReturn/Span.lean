/-
Half-open ranges of byte offsets. A range written down by hand goes
through `Span.make`, which refuses a reversed one.
-/
import EarlyReturn.Text.Basic

namespace EarlyReturn

/-- The offsets from `start` up to, not including, `stop`. -/
structure Span where
  start : Nat
  stop : Nat
  deriving DecidableEq, Repr

namespace Span

/-- A range whose end lies before its start. -/
structure Reversed where
  start : Nat
  stop : Nat
  deriving DecidableEq, Repr

def Reversed.message (r : Reversed) : Text :=
  "Span start (".toList ++ Text.ofNat r.start ++ ") must be <= end (".toList
    ++ Text.ofNat r.stop ++ ")".toList

/-- The range from `start` to `stop`, which must not be reversed. -/
def make (start stop : Nat) : Except Reversed Span :=
  if start ≤ stop then .ok ⟨start, stop⟩ else .error ⟨start, stop⟩

def length (s : Span) : Nat := s.stop - s.start

def isEmpty (s : Span) : Bool := s.start == s.stop

/-- The two ranges share an offset, or one is empty inside the other. -/
def overlaps (s t : Span) : Bool :=
  s.start < t.stop && t.start < s.stop

/-- The second range lies within the first. -/
def contains (s t : Span) : Bool :=
  s.start ≤ t.start && t.stop ≤ s.stop

/-- Interval notation, `[s, e)`. -/
def render (s : Span) : Text :=
  "[".toList ++ Text.ofNat s.start ++ ", ".toList ++ Text.ofNat s.stop
    ++ ")".toList

end Span

end EarlyReturn
