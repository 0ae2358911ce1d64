/-
JSON text with two spaces of indentation per level. A value is laid out
at the level where it stands, so it is a function of that level. Empty
lists take no line of their own. Only quotes, backslashes and control
characters below U+0020 are escaped.
-/
import EarlyReturn.Text.Basic

namespace EarlyReturn

/-- A JSON value: its text at a given level of indentation. -/
def Json : Type := Nat → Text

namespace Json

/-- How a character is written inside quotes. -/
def escape (c : Char) : Text :=
  match c with
  | '"' => "\\\"".toList
  | '\\' => "\\\\".toList
  | '\x08' => "\\b".toList
  | '\x0c' => "\\f".toList
  | '\n' => "\\n".toList
  | '\r' => "\\r".toList
  | '\t' => "\\t".toList
  | _ =>
    if c.toNat < 0x20 then
      "\\u00".toList
        ++ [Nat.digitChar (c.toNat / 16), Nat.digitChar (c.toNat % 16)]
    else [c]

/-- A text in quotes. -/
def quote (t : Text) : Text :=
  '"' :: t.flatMap escape ++ ['"']

def text (t : Text) : Json := fun _ => quote t

def number (n : Nat) : Json := fun _ => Text.ofNat n

def boolean (b : Bool) : Json :=
  fun _ => if b then "true".toList else "false".toList

/-- A new line at a level. -/
def newline (level : Nat) : Text :=
  '\n' :: List.replicate (2 * level) ' '

/-- Items on lines of their own between two delimiters. -/
def block (opening closing : Char) (items : List Json) : Json := fun level =>
  match items with
  | [] => [opening, closing]
  | _ =>
    let separator := ',' :: newline (level + 1)
    [opening] ++ newline (level + 1)
      ++ separator.intercalate (items.map fun item => item (level + 1))
      ++ newline level ++ [closing]

def list (items : List Json) : Json := block '[' ']' items

/-- Named fields, in the given order. -/
def record (fields : List (String × Json)) : Json :=
  block '\x7b' '\x7d' (fields.map fun (name, value) => fun level =>
    quote name.toList ++ ": ".toList ++ value level)

/-- A whole document: the value and a newline. -/
def document (value : Json) : Text :=
  value 0 ++ ['\n']

end Json

end EarlyReturn
