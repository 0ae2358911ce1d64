/-
Bytes of program text. A script is scanned byte by byte, so the
scanner's classes are classes of bytes: every byte of a non-ASCII
character is at least 0x80, and such bytes only ever count as parts of
names. The named constants keep the scanning rules readable.
-/
namespace EarlyReturn

/-- A string of bytes: the content of a file, a path, or masked text. -/
abbrev Bytes := List UInt8

namespace Byte

-- ======================================== named bytes

@[match_pattern] abbrev zero : UInt8 := 0x00
@[match_pattern] abbrev tab : UInt8 := 0x09
@[match_pattern] abbrev newline : UInt8 := 0x0A
@[match_pattern] abbrev formFeed : UInt8 := 0x0C
@[match_pattern] abbrev carriageReturn : UInt8 := 0x0D
@[match_pattern] abbrev space : UInt8 := 0x20
@[match_pattern] abbrev doubleQuote : UInt8 := 0x22
@[match_pattern] abbrev dollar : UInt8 := 0x24
@[match_pattern] abbrev singleQuote : UInt8 := 0x27
@[match_pattern] abbrev openParen : UInt8 := 0x28
@[match_pattern] abbrev closeParen : UInt8 := 0x29
@[match_pattern] abbrev star : UInt8 := 0x2A
@[match_pattern] abbrev dot : UInt8 := 0x2E
@[match_pattern] abbrev slash : UInt8 := 0x2F
@[match_pattern] abbrev semicolon : UInt8 := 0x3B
@[match_pattern] abbrev openBracket : UInt8 := 0x5B
@[match_pattern] abbrev backslash : UInt8 := 0x5C
@[match_pattern] abbrev closeBracket : UInt8 := 0x5D
@[match_pattern] abbrev underscore : UInt8 := 0x5F
@[match_pattern] abbrev backtick : UInt8 := 0x60
@[match_pattern] abbrev openBrace : UInt8 := 0x7B
@[match_pattern] abbrev closeBrace : UInt8 := 0x7D

-- ======================================== classes

/-- Space or tab: what may stand between two words of one line. -/
def isBlank (b : UInt8) : Bool :=
  b == space || b == tab

/-- ASCII white space: space, tab, newline, form feed, carriage return.
The vertical tab is not in the class. -/
def isSpace (b : UInt8) : Bool :=
  b == space || b == tab || b == newline || b == formFeed || b == carriageReturn

def isLetter (b : UInt8) : Bool :=
  (0x41 ≤ b && b ≤ 0x5A) || (0x61 ≤ b && b ≤ 0x7A)

def isDigit (b : UInt8) : Bool :=
  0x30 ≤ b && b ≤ 0x39

/-- An ASCII byte that can start a name. -/
def startsName (b : UInt8) : Bool :=
  isLetter b || b == underscore || b == dollar

/-- An ASCII byte that can continue a name. -/
def continuesName (b : UInt8) : Bool :=
  startsName b || isDigit b

/-- A byte that can be part of a name. Bytes of non-ASCII characters
count, whatever the character is. -/
def isName (b : UInt8) : Bool :=
  continuesName b || 0x80 ≤ b

/-- A continuation byte of a multi-byte character. -/
def isContinuation (b : UInt8) : Bool :=
  0x80 ≤ b && b ≤ 0xBF

end Byte

end EarlyReturn
