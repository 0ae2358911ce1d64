/-
Text is a list of characters; its bytes are the UTF-8 encodings of the
characters in order. Offsets into text are byte offsets throughout.
-/
import EarlyReturn.Byte

namespace EarlyReturn

/-- Text: a list of characters. -/
abbrev Text := List Char

namespace Text

/-- The UTF-8 bytes of a text. -/
def bytes (text : Text) : Bytes :=
  text.flatMap String.utf8EncodeChar

/-- The number of bytes of a text. -/
def size : Text → Nat
  | [] => 0
  | c :: rest => c.utf8Size + size rest

/-- Cuts a text at a byte offset: the characters before it and those
from it on. There is no cut past the end or inside a character. -/
def cut? : Text → Nat → Option (Text × Text)
  | text, 0 => some ([], text)
  | [], _ + 1 => none
  | c :: rest, offset =>
    if c.utf8Size ≤ offset then
      (cut? rest (offset - c.utf8Size)).map fun (front, back) =>
        (c :: front, back)
    else none

/-- Decimal digits of a number. -/
def ofNat (n : Nat) : Text :=
  Nat.toDigits 10 n

/-- Splits at every newline; the pieces keep everything else. A text
with `n` newlines has `n + 1` lines. -/
def lines : Text → List Text
  | [] => [[]]
  | c :: rest =>
    if c = '\n' then [] :: lines rest
    else
      match lines rest with
      | [] => [[c]]
      | line :: more => (c :: line) :: more

end Text

/-- The bytes of a literal. -/
def bytesOf (literal : String) : Bytes :=
  Text.bytes literal.toList

end EarlyReturn
