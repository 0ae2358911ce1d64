/-
Patterns on bytes, and matching without backtracking. Matching keeps the
set of offsets that can be reached so far and moves the whole set
through the pattern piece by piece, so its cost is the size of the
pattern times the length of the name.
-/
import EarlyReturn.Byte

namespace EarlyReturn.Glob

/-- A set of bytes: some ranges, both ends included, or everything
outside them. -/
structure ByteSet where
  negated : Bool
  ranges : List (UInt8 × UInt8)
  deriving DecidableEq, Repr

namespace ByteSet

def contains (set : ByteSet) (b : UInt8) : Bool :=
  set.ranges.any (fun range => range.1 ≤ b && b ≤ range.2) != set.negated

/-- Every byte. -/
def any : ByteSet := ⟨true, []⟩

def single (b : UInt8) : ByteSet := ⟨false, [(b, b)]⟩

end ByteSet

/-- A pattern on byte strings. -/
inductive Pattern where
  /-- The empty string. -/
  | nothing
  /-- One byte of a set. -/
  | one (set : ByteSet)
  /-- Any bytes, also none. -/
  | anything
  | both (first second : Pattern)
  | either (left right : Pattern)
  deriving DecidableEq, Repr

namespace Pattern

/-- One pattern after the other. -/
def andThen : Pattern → Pattern → Pattern
  | .nothing, q => q
  | p, .nothing => p
  | p, q => .both p q

/-- One pattern after the other, for a list. -/
def sequence (patterns : List Pattern) : Pattern :=
  patterns.foldr andThen .nothing

/-- The given bytes. -/
def literal (bytes : Bytes) : Pattern :=
  sequence (bytes.map fun b => .one (.single b))

/-- Any of the alternatives. Those that ask for nothing are not taken
into account; if no other is there, the group asks for nothing. -/
def group (alternatives : List Pattern) : Pattern :=
  match alternatives.filter (· != .nothing) with
  | [] => .nothing
  | p :: rest => rest.foldl .either p

/-- From each reachable offset on, all further ones can be reached. -/
def spread : (reached : Bool) → List Bool → List Bool
  | _, [] => []
  | reached, here :: rest => (reached || here) :: spread (reached || here) rest

/-- The offsets of a name that can be reached behind the pattern from
the given ones: entry `i` says whether offset `i` can. -/
def reach (name : Bytes) : Pattern → List Bool → List Bool
  | .nothing, starts => starts
  | .one set, starts =>
    false :: List.zipWith (fun here b => here && set.contains b) starts name
  | .anything, starts => spread false starts
  | .both first second, starts => reach name second (reach name first starts)
  | .either left right, starts =>
    List.zipWith (fun l r => l || r) (reach name left starts)
      (reach name right starts)

/-- Whether the pattern matches the whole name. -/
def fits (pattern : Pattern) (name : Bytes) : Bool :=
  (pattern.reach name (true :: List.replicate name.length false)).getLast?
    == some true

end Pattern

end EarlyReturn.Glob
