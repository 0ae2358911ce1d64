/-
Finding calls in masked text. `Shape.sight?` reads one call at the start
of the bytes; `Shape.calls` goes through the text from left to right,
takes every sighting at a word boundary and goes on behind what it has
read.

A forwarding call is read whole: `next`, the parentheses with at most
one name in them, and then the end of a statement, namely spaces or tabs
and a semicolon, a line end, a closing brace or the end of the text.

Of a response call only the head is read, up to the parenthesis of
`status` or `json`; where the call ends follows from the brackets. A
`status` call counts only if `.json(` follows it. A `json` call whose
parenthesis is never closed ends behind that parenthesis.
-/
import EarlyReturn.Text.Utf8
import EarlyReturn.Text.Word
import EarlyReturn.Text.WhiteSpace
import EarlyReturn.Script.Bracket
import EarlyReturn.Script.Rule
import EarlyReturn.Span

namespace EarlyReturn

/-- What a reader has seen: how many bytes it has read, and how long the
call is that starts with them, if they do start one. -/
structure Sighting where
  read : Nat
  length? : Option Nat
  deriving DecidableEq, Repr

namespace Shape

/-- The rest after white space and one given byte. -/
def afterByte? (b : UInt8) (bytes : Bytes) : Option Bytes :=
  match Text.dropSpace bytes with
  | c :: rest => if c == b then some rest else none
  | [] => none

/-- The rest after white space and a given word. -/
def afterWord? (word : String) (bytes : Bytes) : Option Bytes :=
  (bytesOf word).isPrefixOf? (Text.dropSpace bytes)

-- ======================================== forwarding calls

/-- Drops the name that the bytes start with, if they start with one. -/
def dropName : Bytes → Bytes
  | [] => []
  | b :: rest =>
    if Byte.startsName b then rest.dropWhile Byte.continuesName else b :: rest

/-- The rest after the end of a statement. -/
def afterEnd? (bytes : Bytes) : Option Bytes :=
  match bytes.dropWhile Byte.isBlank with
  | [] => some []
  | Byte.semicolon :: rest => some rest
  | Byte.newline :: rest => some rest
  | Byte.closeBrace :: rest => some rest
  | Byte.carriageReturn :: Byte.newline :: rest => some rest
  | _ => none

/-- The rest after `next(…)`. -/
def afterForward? (bytes : Bytes) : Option Bytes := do
  let rest ← (bytesOf "next").isPrefixOf? bytes
  let rest ← afterByte? Byte.openParen rest
  afterByte? Byte.closeParen (dropName (Text.dropSpace rest))

def sightForward? (bytes : Bytes) : Option Sighting := do
  let afterCall ← afterForward? bytes
  let rest ← afterEnd? afterCall
  return {
    read := bytes.length - rest.length
    length? := some (bytes.length - afterCall.length) }

-- ======================================== response calls

/-- A method of the response that a call can start with. -/
inductive Method where
  | status
  | json
  deriving DecidableEq, Repr

/-- The method named after a dot, and the rest from its parenthesis
on. -/
def method? (bytes : Bytes) : Option (Method × Bytes) := do
  let rest ← afterByte? Byte.dot bytes
  let (method, rest) ←
    match afterWord? "status" rest with
    | some rest => some (Method.status, rest)
    | none => (afterWord? "json" rest).map (Method.json, ·)
  let arguments := Text.dropSpace rest
  if arguments.head? == some Byte.openParen then some (method, arguments)
  else none

/-- The bytes from the parenthesis of `json` on, for a call whose head
has been read up to `arguments`, the parenthesis of its first method. -/
def jsonArguments? : Method → Bytes → Option Bytes
  | .json, arguments => some arguments
  | .status, arguments => do
    let close ← Bracket.close? 0 arguments
    match ← method? (arguments.drop (close + 1)) with
    | (.json, rest) => some rest
    | (.status, _) => none

/-- The number of bytes from an opening parenthesis to behind the one
that closes it; the parenthesis alone if none does. -/
def argumentsLength (arguments : Bytes) : Nat :=
  match Bracket.close? 0 arguments with
  | some close => close + 1
  | none => 1

def sightResponse? (bytes : Bytes) : Option Sighting := do
  let rest ← (bytesOf "res").isPrefixOf? bytes
  let (method, arguments) ← method? rest
  return {
    read := bytes.length - arguments.length + 1
    length? := (jsonArguments? method arguments).map fun json =>
      bytes.length - json.length + argumentsLength json }

-- ======================================== all calls

/-- Reads a call of the shape at the start of the bytes. -/
def sight? : Shape → Bytes → Option Sighting
  | .forwardError => sightForward?
  | .emitJson => sightResponse?

/-- Whether a word that starts behind these bytes, nearest first, starts
at a word boundary. -/
def atBoundary (before : Bytes) : Bool :=
  match Utf8.charBefore? before with
  | some c => !Text.isWord c
  | none => true

/-- The calls in the rest of a text. `before` holds the bytes that have
been passed, nearest first, `offset` their number, and the next `skip`
bytes belong to the last sighting. -/
def callsFrom (shape : Shape) :
    (before : Bytes) → (offset skip : Nat) → Bytes → List Span
  | _, _, _, [] => []
  | before, offset, skip + 1, b :: rest =>
    callsFrom shape (b :: before) (offset + 1) skip rest
  | before, offset, 0, b :: rest =>
    match (shape.sight? (b :: rest)).filter fun _ => atBoundary before with
    | none => callsFrom shape (b :: before) (offset + 1) 0 rest
    | some sighting =>
      let more :=
        callsFrom shape (b :: before) (offset + 1) (sighting.read - 1) rest
      match sighting.length? with
      | some length => ⟨offset, offset + length⟩ :: more
      | none => more

/-- The spans of all calls of the shape, in order. -/
def calls (shape : Shape) (masked : Bytes) : List Span :=
  callsFrom shape [] 0 0 masked

end Shape

end EarlyReturn
