/-
Statement position. A call starts a statement if, apart from its margin
of spaces and tabs, it stands at the start of the text, behind a brace,
a semicolon or a closing parenthesis, behind `else`, or on a fresh line
while the code before does not run on. Code runs on if it ends in an
operator or in a word that wants an operand.

Everything here reads the text backwards: `before` holds the masked
bytes before a place, nearest first.
-/
import EarlyReturn.Text.Basic
import EarlyReturn.Span

namespace EarlyReturn.Statement

/-- The bytes before an offset, nearest first. -/
def bytesBefore (masked : Bytes) (offset : Nat) : Bytes :=
  (masked.take offset).reverse

/-- Whether the bytes end in the given word, and not in a longer name. -/
def endsInWord (word : String) (before : Bytes) : Bool :=
  match (bytesOf word).reverse.isPrefixOf? before with
  | some rest => !rest.head?.any Byte.isName
  | none => false

/-- Words that want an operand, so that the statement goes on after
them. -/
def operandWords : List String :=
  ["await", "case", "delete", "extends", "in", "instanceof", "new", "of",
    "throw", "typeof",
   "void", "yield"]

/-- A byte that ends a statement or a literal at the end of a line. -/
def endsLine (b : UInt8) : Bool :=
  (bytesOf "\x7b\x7d;)]'\"`").contains b

/-- Whether the code so far may end with its line. White space does not
count. -/
def completes (before : Bytes) : Bool :=
  match before.dropWhile Byte.isSpace with
  | [] => true
  | b :: rest =>
    endsLine b || (Byte.isName b
      && !operandWords.any fun word => endsInWord word (b :: rest))

/-- Whether a statement starts behind these bytes; they do not end in
spaces or tabs. -/
def startsBehind (before : Bytes) : Bool :=
  match before with
  | [] => true
  | b :: _ =>
    if b == Byte.newline || b == Byte.carriageReturn then completes before
    else
      b == Byte.openBrace || b == Byte.closeBrace || b == Byte.semicolon
        || b == Byte.closeParen
        || endsInWord "else" before

/-- The margin of a call at `offset` that starts a statement. -/
def margin? (masked : Bytes) (offset : Nat) : Option Span :=
  let before := bytesBefore masked offset
  let width := (before.takeWhile Byte.isBlank).length
  if startsBehind (before.drop width) then some ⟨offset - width, offset⟩
  else none

end EarlyReturn.Statement
