/-
Sites: the calls that should have the keyword before them. The sites of
a text are the outermost calls in statement position. Calls are taken
in order of their start, a longer one first, and one that overlaps the
last one kept is dropped.
-/
import EarlyReturn.StableSort
import EarlyReturn.Script.Call
import EarlyReturn.Script.Keyword
import EarlyReturn.Script.Mask
import EarlyReturn.Script.Statement
import EarlyReturn.Text.Position

namespace EarlyReturn

/-- A call of some shape in statement position. -/
structure Statement.Call where
  shape : Shape
  call : Span
  margin : Span
  deriving DecidableEq, Repr

/-- A call for the keyword, with the place where it starts. -/
structure Site where
  shape : Shape
  call : Span
  margin : Span
  position : Position
  deriving DecidableEq, Repr

/-- The calls of a shape in statement position, in order. -/
def Shape.statements (shape : Shape) (masked : Bytes) : List Statement.Call :=
  (shape.calls masked).filterMap fun call =>
    (Statement.margin? masked call.start).map fun margin =>
      ⟨shape, call, margin⟩

namespace Statement.Call

/-- Reading order: by start, and of two calls with one start the longer
first. -/
def precedes (a b : Statement.Call) : Bool :=
  a.call.start < b.call.start
    || (a.call.start == b.call.start && b.call.stop ≤ a.call.stop)

/-- Keeps each call that does not overlap the last one kept. -/
def outermost : Option Span → List Statement.Call → List Statement.Call
  | _, [] => []
  | kept, c :: rest =>
    if kept.any c.call.overlaps then outermost kept rest
    else c :: outermost (some c.call) rest

/-- The outermost calls in statement position for all rules, in reading
order. -/
def all (masked : Bytes) (rules : List Rule) : List Statement.Call :=
  outermost none
    (stableSort precedes
      (rules.flatMap fun rule => rule.shape.statements masked))

end Statement.Call

namespace Site

/-- The sites of a text under a given mask. -/
def allMasked (text : Text) (masked : Bytes) (rules : List Rule) : List Site :=
  let calls := Statement.Call.all masked rules
  let positions := Position.ofOffsets text (calls.map (·.call.start))
  calls.zipWith (fun c position => ⟨c.shape, c.call, c.margin, position⟩)
    positions

/-- The sites of a text. -/
def all (text : Text) (rules : List Rule) : List Site :=
  allMasked text text.mask rules

/-- The sites that do not carry the keyword yet. -/
def uncovered (masked : Bytes) (sites : List Site) (rules : List Rule)
    (keyword : Text) : List Site :=
  sites.filter fun site => !Keyword.covers keyword masked site.call.start
    (site.shape.lookbackIn rules)

end Site

end EarlyReturn
