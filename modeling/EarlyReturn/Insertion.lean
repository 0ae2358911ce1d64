/-
Insertions into a text. A set of insertions is applied as a whole or
refused as a whole: two at one offset, one past the end or one inside a
character does not fit. Of several faults a repeated offset counts
first, and otherwise the fault of the highest offset.
-/
import EarlyReturn.StableSort
import EarlyReturn.Script.Site

namespace EarlyReturn

/-- A piece of text to be put in at a byte offset. -/
structure Insertion where
  position : Nat
  text : Text
  deriving DecidableEq, Repr

namespace Insertion

/-- Why insertions do not fit a text. -/
inductive Fault where
  | duplicate (position : Nat)
  | outOfBounds (position size : Nat)
  | insideCharacter (position : Nat)
  deriving DecidableEq, Repr

def Fault.message : Fault → Text
  | .duplicate position =>
    "duplicate insertion at byte ".toList ++ Text.ofNat position
  | .outOfBounds position size =>
    "insertion at byte ".toList ++ Text.ofNat position
      ++ " is beyond text length ".toList ++ Text.ofNat size
  | .insideCharacter position =>
    "insertion at byte ".toList ++ Text.ofNat position
      ++ " is not on a char boundary".toList

/-- The insertions by descending offset. -/
def descending (insertions : List Insertion) : List Insertion :=
  stableSort (fun a b => b.position ≤ a.position) insertions

/-- The first offset that two neighbours share. -/
def repeated? : List Insertion → Option Nat
  | a :: b :: rest =>
    if a.position = b.position then some a.position else repeated? (b :: rest)
  | _ => none

/-- Why an insertion does not fit the text, if it does not. -/
def fault? (source : Text) (insertion : Insertion) : Option Fault :=
  if source.size < insertion.position then
    some (.outOfBounds insertion.position source.size)
  else if (source.cut? insertion.position).isNone then
    some (.insideCharacter insertion.position)
  else none

/-- Puts one insertion in. A text that has no boundary at the offset stays
as it is. -/
def insertInto (text : Text) (insertion : Insertion) : Text :=
  match text.cut? insertion.position with
  | some (front, back) => front ++ insertion.text ++ back
  | none => text

/-- Applies insertions, given in any order. They are all looked at before
the first is put in. The highest goes in first, so that the offsets of
those still to come stay right. -/
def applyAll (source : Text) (insertions : List Insertion) :
    Except Fault Text :=
  let ordered := descending insertions
  match repeated? ordered with
  | some position => .error (.duplicate position)
  | none =>
    match ordered.findSome? (fault? source) with
    | some fault => .error fault
    | none => .ok (ordered.foldl insertInto source)

/-- The insertions that put the keyword and a space before each site. -/
def ofSites (sites : List Site) (keyword : Text) : List Insertion :=
  sites.map fun site => ⟨site.call.start, keyword ++ [' ']⟩

end Insertion

end EarlyReturn
