/-
White space between the parts of a call: the characters with the
Unicode property White_Space, in their UTF-8 encodings. The encodings
have one to three bytes, and none is the start of another.
-/
import EarlyReturn.Text.Basic

namespace EarlyReturn.Text

/-- The characters with the property White_Space. -/
def whiteSpace : Text :=
  ['\t', '\n', '\x0b', '\x0c', '\r', ' ', '\x85', '\xa0', '\u1680', '\u2000',
    '\u2001',
   '\u2002', '\u2003', '\u2004', '\u2005', '\u2006', '\u2007', '\u2008',
     '\u2009',
   '\u200a', '\u2028', '\u2029', '\u202f', '\u205f', '\u3000']

/-- Whether the bytes encode one white space character. -/
def encodesSpace (bytes : Bytes) : Bool :=
  whiteSpace.any fun c => String.utf8EncodeChar c == bytes

/-- Drops the white space that the bytes start with. -/
def dropSpace : Bytes → Bytes
  | [] => []
  | a :: rest =>
    if encodesSpace [a] then dropSpace rest
    else
      match rest with
      | b :: c :: more =>
        if encodesSpace [a, b] then dropSpace (c :: more)
        else if encodesSpace [a, b, c] then dropSpace more
        else a :: b :: c :: more
      | [b] => if encodesSpace [a, b] then [] else [a, b]
      | [] => [a]

end EarlyReturn.Text
