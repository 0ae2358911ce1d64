/-
Reading bytes as UTF-8. `decode?` accepts exactly the encodings of
texts. `decodeLossy` reads anything: each ill-formed piece, that is each
longest run that starts a character without finishing it, becomes one
replacement character. `charBefore?` reads the character that ends at a
position of scanned text.
-/
import EarlyReturn.Text.Basic

namespace EarlyReturn.Utf8

/-- The character that a byte string starts with, if it starts with the
encoding of one. -/
def leadChar? (bytes : Bytes) : Option Char :=
  (bytes.take 4).toByteArray.utf8DecodeChar? 0

-- ======================================== strict reading

/-- Decodes after `skip` more bytes, which belong to a character that
has been read already. -/
def decodeFrom? : Nat → Bytes → Option Text
  | _, [] => some []
  | skip + 1, _ :: rest => decodeFrom? skip rest
  | 0, b :: rest => do
    let c ← leadChar? (b :: rest)
    let text ← decodeFrom? (c.utf8Size - 1) rest
    return c :: text

/-- The text that the bytes encode, if they are valid UTF-8. -/
def decode? (bytes : Bytes) : Option Text :=
  decodeFrom? 0 bytes

-- ======================================== lossy reading

/-- Whether `second` can follow the lead byte `lead` of a character of
three or four bytes. -/
def continues (lead second : UInt8) : Bool :=
  if lead == 0xE0 then 0xA0 ≤ second && second ≤ 0xBF
  else if lead == 0xED then 0x80 ≤ second && second ≤ 0x9F
  else if lead == 0xF0 then 0x90 ≤ second && second ≤ 0xBF
  else if lead == 0xF4 then 0x80 ≤ second && second ≤ 0x8F
  else 0xE1 ≤ lead && lead ≤ 0xF3 && Byte.isContinuation second

/-- The length of the ill-formed piece that a byte string starts with:
the bytes that could start a character, at least one. -/
def brokenLength : Bytes → Nat
  | lead :: second :: rest =>
    if !continues lead second then 1
    else if lead < 0xF0 then 2
    else
      match rest with
      | third :: _ => if Byte.isContinuation third then 3 else 2
      | [] => 2
  | _ => 1

/-- Decodes leniently after `skip` more bytes, which belong to what has
been read already. -/
def decodeLossyFrom : Nat → Bytes → Text
  | _, [] => []
  | skip + 1, _ :: rest => decodeLossyFrom skip rest
  | 0, b :: rest =>
    match leadChar? (b :: rest) with
    | some c => c :: decodeLossyFrom (c.utf8Size - 1) rest
    | none => '\ufffd' :: decodeLossyFrom (brokenLength (b :: rest) - 1) rest

/-- Reads any bytes as text, with one U+FFFD for each ill-formed piece. -/
def decodeLossy (bytes : Bytes) : Text :=
  decodeLossyFrom 0 bytes

-- ======================================== reading backwards

/-- The character that ends where `before`, the bytes before a position
nearest first, begins. It is read from the nearest byte that is no
continuation byte, at most four bytes back. -/
def charBefore? (before : Bytes) : Option Char :=
  let tail := (before.take 3).takeWhile Byte.isContinuation
  leadChar? (before.take (tail.length + 1)).reverse

end EarlyReturn.Utf8
