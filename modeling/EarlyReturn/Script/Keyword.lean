/-
Calls that carry the keyword already. The keyword counts if it stands as
a whole word within the lookback before a call, white space before the
call not counted, and no semicolon or brace lies between.
-/
import EarlyReturn.Text.Basic

namespace EarlyReturn.Keyword

/-- A byte that ends the search for the keyword. -/
def divides (b : UInt8) : Bool :=
  b == Byte.semicolon || b == Byte.openBrace || b == Byte.closeBrace

/-- Whether a word, given backwards, ends as a whole word somewhere in the
next `reach` of the bytes `before`, nearest first, and lies within them.
`behind` is the byte behind them. -/
def occurs (word : Bytes) :
    (behind : Option UInt8) → (reach : Nat) → (before : Bytes) → Bool
  | _, 0, _ => false
  | _, _, [] => false
  | behind, reach + 1, b :: rest =>
    let here :=
      match word.isPrefixOf? (b :: rest) with
      | some front =>
        word.length ≤ reach + 1 && !behind.any Byte.isName
          && !front.head?.any Byte.isName
      | none => false
    here || occurs word (some b) reach rest

/-- Whether a call at `start` has the keyword before it. A start past
the end counts as the end. -/
def covers (keyword : Text) (masked : Bytes) (start lookback : Nat) : Bool :=
  let before := (masked.take start).reverse.dropWhile Byte.isSpace
  let reach := ((before.take lookback).takeWhile fun b => !divides b).length
  !keyword.isEmpty
    && occurs keyword.bytes.reverse masked[before.length]? reach before

end EarlyReturn.Keyword
