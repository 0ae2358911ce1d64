/-
The mask of a script: the same bytes with comments and the insides of
string, regular-expression and template literals blanked, so that what
looks like a call or a bracket in the mask is one. Delimiters of
literals stay, the code inside a template substitution stays, newlines
always stay, and every byte keeps its offset.

The lexer reads one byte at a time and may look at the one after it. A
two-byte delimiter is read as two steps: `blockOpening`, `blockClosing`
and `substitution` stand before its second byte, the `…Escape` modes
before the byte after a backslash.

A slash starts a regular expression where an operand is expected, which
the lexer tells from the last significant code byte. A template
substitution ends at the brace that brings the brace depth back to what
it was at its start, so the depths of the open substitutions are kept
on a stack.
-/
import EarlyReturn.Text.Basic

namespace EarlyReturn

/-- What the next byte is part of. -/
inductive Lexer.Mode where
  | code
  | lineComment
  | blockOpening
  | blockComment
  | blockClosing
  | quoted (quote : UInt8)
  | quotedEscape (quote : UInt8)
  | template
  | templateEscape
  | substitution
  | regex (inClass : Bool)
  | regexEscape (inClass : Bool)
  deriving DecidableEq, Repr

/-- The state between two bytes: the mode, the depth of open braces, the
depths at which the open substitutions end, and the last significant
code byte. -/
structure Lexer where
  mode : Lexer.Mode := .code
  depth : Nat := 0
  substitutions : List Nat := []
  last : Option UInt8 := none
  deriving DecidableEq, Repr

namespace Lexer

/-- The state at the start of a script. -/
def start : Lexer := {}

/-- After these bytes an operand is expected, so a slash starts a
regular expression. -/
def operandFollows : Bytes :=
  bytesOf "(,=:[!&|?\x7b\x7d;+-*%<>~^"

/-- Whether a slash in code starts a regular expression. -/
def regexAllowed (s : Lexer) : Bool :=
  match s.last with
  | none => true
  | some b => operandFollows.contains b

/-- Records a code byte as the last significant one, unless it is white
space. -/
def note (s : Lexer) (b : UInt8) : Lexer :=
  if Byte.isSpace b then s else { s with last := some b }

/-- Reads a closing brace in code: the end of the innermost substitution
if it brings the depth back to where that began. -/
def closeBrace (s : Lexer) : Lexer :=
  let depth := s.depth - 1
  match s.substitutions with
  | outer :: more =>
    if outer = depth then
      { s with mode := .template, depth, substitutions := more }
    else { s with depth }
  | [] => { s with depth }

/-- Whether a byte of code, with the byte after it, opens a comment. -/
def opensComment (b : UInt8) (next : Option UInt8) : Bool :=
  b == Byte.slash && (next == some Byte.slash || next == some Byte.star)

/-- Reads a byte of code that does not open a comment. -/
def readCode (s : Lexer) (b : UInt8) : Lexer :=
  let s' :=
    match b with
    | Byte.slash =>
      if s.regexAllowed then { s with mode := .regex false } else s
    | Byte.singleQuote | Byte.doubleQuote => { s with mode := .quoted b }
    | Byte.backtick => { s with mode := .template }
    | Byte.openBrace => { s with depth := s.depth + 1 }
    | Byte.closeBrace => s.closeBrace
    | _ => s
  s'.note b

/-- The state after a byte; `next` is the byte that follows it. -/
def advance (s : Lexer) (b : UInt8) (next : Option UInt8) : Lexer :=
  match s.mode with
  | .code =>
    if opensComment b next then
      { s with
        mode :=
          if next == some Byte.slash then .lineComment else .blockOpening }
    else s.readCode b
  | .lineComment => if b == Byte.newline then { s with mode := .code } else s
  | .blockOpening => { s with mode := .blockComment }
  | .blockComment =>
    if b == Byte.star && next == some Byte.slash then
      { s with mode := .blockClosing }
    else s
  | .blockClosing => { s with mode := .code }
  | .quoted quote =>
    if b == Byte.backslash then { s with mode := .quotedEscape quote }
    else if b == quote then { s with mode := .code, last := some quote }
    else if b == Byte.newline then { s with mode := .code }
    else s
  | .quotedEscape quote => { s with mode := .quoted quote }
  | .template =>
    if b == Byte.backslash then { s with mode := .templateEscape }
    else if b == Byte.backtick then
      { s with mode := .code, last := some Byte.backtick }
    else if b == Byte.dollar && next == some Byte.openBrace then
      { s with mode := .substitution }
    else s
  | .templateEscape => { s with mode := .template }
  | .substitution =>
    { s with
      mode := .code
      depth := s.depth + 1
      substitutions := s.depth :: s.substitutions
      last := some Byte.openBrace }
  | .regex inClass =>
    if b == Byte.backslash then { s with mode := .regexEscape inClass }
    else if b == Byte.newline then { s with mode := .code }
    else if b == Byte.slash && !inClass then
      { s with mode := .code, last := some Byte.slash }
    else if b == Byte.openBracket then { s with mode := .regex true }
    else if b == Byte.closeBracket then { s with mode := .regex false }
    else s
  | .regexEscape inClass => { s with mode := .regex inClass }

/-- Whether a byte is kept in the mask. A newline is kept anyway. -/
def shows (s : Lexer) (b : UInt8) (next : Option UInt8) : Bool :=
  match s.mode with
  | .code => !opensComment b next
  | .quoted quote => b == quote && b != Byte.backslash
  | .template =>
    b == Byte.backtick || (b == Byte.dollar && next == some Byte.openBrace)
  | .substitution => true
  | .regex inClass => b == Byte.slash && !inClass
  | _ => false

/-- The byte that stands in the mask for a byte of the script. -/
def image (s : Lexer) (b : UInt8) (next : Option UInt8) : UInt8 :=
  if b == Byte.newline || s.shows b next then b else Byte.space

/-- The mask of the rest of a script. -/
def mask (s : Lexer) : Bytes → Bytes
  | [] => []
  | b :: rest => s.image b rest.head? :: (s.advance b rest.head?).mask rest

end Lexer

/-- The mask of a text. -/
def Text.mask (text : Text) : Bytes :=
  Lexer.start.mask text.bytes

end EarlyReturn
