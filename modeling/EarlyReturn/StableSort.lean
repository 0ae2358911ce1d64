/-
Sorting by insertion. Elements that neither comes before the other keep
their order.
-/
namespace EarlyReturn

/-- Puts an element in front of the first one that it may precede. -/
def place {α : Type} (precedes : α → α → Bool) (x : α) : List α → List α
  | [] => [x]
  | y :: rest =>
    if precedes x y then x :: y :: rest else y :: place precedes x rest

/-- The list in order; `precedes x y` says that `x` may stand before
`y`. -/
def stableSort {α : Type} (precedes : α → α → Bool) (xs : List α) : List α :=
  xs.foldr (place precedes) []

end EarlyReturn
