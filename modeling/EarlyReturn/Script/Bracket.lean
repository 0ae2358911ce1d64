/-
Bracket nesting in masked text. The three kinds of brackets share one
depth, so a parenthesis is closed by the first closing bracket that
brings the depth back to zero, and only if that is a parenthesis too.
-/
import EarlyReturn.Byte

namespace EarlyReturn.Bracket

def opens (b : UInt8) : Bool :=
  b == Byte.openParen || b == Byte.openBracket || b == Byte.openBrace

def closes (b : UInt8) : Bool :=
  b == Byte.closeParen || b == Byte.closeBracket || b == Byte.closeBrace

/-- How far on the closing parenthesis stands that brings `depth` open
brackets down to none. -/
def close? : Nat → Bytes → Option Nat
  | _, [] => none
  | depth, b :: rest =>
    if opens b then (close? (depth + 1) rest).map (· + 1)
    else if closes b then
      match depth with
      | 0 => none
      | 1 => if b == Byte.closeParen then some 0 else none
      | outer + 2 => (close? (outer + 1) rest).map (· + 1)
    else (close? depth rest).map (· + 1)

/-- The offset of the parenthesis that closes the bracket at `start`. -/
def partner? (masked : Bytes) (start : Nat) : Option Nat :=
  (close? 0 (masked.drop start)).map (start + ·)

end EarlyReturn.Bracket
