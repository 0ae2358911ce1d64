/-
Lines and columns. A position is counted in characters from 1 on both
axes, and a newline ends its line. `Position.ofOffset` is the position
of one byte offset; `Position.ofOffsets` converts an ascending list of
offsets in one sweep over the text.
-/
import EarlyReturn.Text.Basic

namespace EarlyReturn

/-- A place in a text: line and column, both from 1. -/
structure Position where
  line : Nat
  column : Nat
  deriving DecidableEq, Repr

namespace Position

/-- The first place of a text. -/
def first : Position := ⟨1, 1⟩

/-- The place after a character. -/
def next (p : Position) (c : Char) : Position :=
  if c = '\n' then ⟨p.line + 1, 1⟩ else ⟨p.line, p.column + 1⟩

/-- A sweep over a text: what is left of it, the offset where that
starts and the position there. -/
structure Sweep where
  rest : Text
  offset : Nat
  position : Position
  deriving DecidableEq, Repr

/-- The start of a sweep. -/
def Sweep.start (text : Text) : Sweep := ⟨text, 0, first⟩

/-- Passes every character that starts before the target offset. -/
def Sweep.advance (target : Nat) : Text → Nat → Position → Sweep
  | [], offset, p => ⟨[], offset, p⟩
  | c :: rest, offset, p =>
    if offset < target then advance target rest (offset + c.utf8Size) (p.next c)
    else ⟨c :: rest, offset, p⟩

/-- The sweep moved on to the target offset. -/
def Sweep.moveTo (sweep : Sweep) (target : Nat) : Sweep :=
  Sweep.advance target sweep.rest sweep.offset sweep.position

/-- The positions of further offsets, from where a sweep stands. -/
def Sweep.positions (sweep : Sweep) : List Nat → List Position
  | [] => []
  | target :: more =>
    let there := sweep.moveTo target
    there.position :: there.positions more

/-- The positions of ascending offsets, in one sweep. -/
def ofOffsets (text : Text) (offsets : List Nat) : List Position :=
  (Sweep.start text).positions offsets

/-- The position of one offset: an offset inside a character counts as
the place after it, one past the end as the end. -/
def ofOffset (text : Text) (offset : Nat) : Position :=
  ((Sweep.start text).moveTo offset).position

end Position

end EarlyReturn
