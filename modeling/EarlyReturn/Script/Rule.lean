/-
The calls that end a request handler, and the rules that look for them.
A rule is a shape of call and how far back the keyword may stand.
-/
import EarlyReturn.Text.Basic

namespace EarlyReturn

/-- The two shapes of call that end a handler. -/
inductive Shape where
  /-- `next()` or `next(error)`: hands over to the next handler. -/
  | forwardError
  /-- `res.json(…)` or `res.status(…).json(…)`: sends the response. -/
  | emitJson
  deriving DecidableEq, Repr

namespace Shape

/-- Every shape, in the order in which rules are kept. -/
def all : List Shape := [.forwardError, .emitJson]

/-- The name under which a shape is selected and reported. -/
def name : Shape → Text
  | .forwardError => "forward-error".toList
  | .emitJson => "emit-json".toList

/-- The shape of a given name. -/
def ofName? (name : Text) : Option Shape :=
  all.find? fun shape => shape.name == name

/-- How far before a call of this shape the keyword is looked for. -/
def lookback : Shape → Nat
  | .forwardError => 30
  | .emitJson => 20

end Shape

/-- A shape to look for, and the number of bytes before a call in which
the keyword counts as standing before it. -/
structure Rule where
  shape : Shape
  lookback : Nat := shape.lookback
  deriving DecidableEq, Repr

/-- The lookback for calls of a shape under some rules: that of the first
rule of the shape, or the shape's own. -/
def Shape.lookbackIn (shape : Shape) (rules : List Rule) : Nat :=
  match rules.find? fun rule => rule.shape == shape with
  | some rule => rule.lookback
  | none => shape.lookback

namespace Rule

/-- The rule for a shape with the shape's own lookback. -/
def ofShape (shape : Shape) : Rule := { shape }

/-- One rule for each shape. -/
def defaults : List Rule := Shape.all.map ofShape

end Rule

end EarlyReturn
