/-
Reading globs. `?` stands for one byte, `*` for any bytes, `[…]` for one
byte of a set, `{…,…}` for alternatives, and a backslash takes the next
character as it is. Two stars that fill a whole path component stand for
any number of components.

The reader takes one character at a time. What it has read so far is a
list of tokens for the alternative it is in, and for each open group the
tokens before it and its finished alternatives. Stars are held back
until the character after them decides what they are.
-/
import EarlyReturn.Glob.Pattern
import EarlyReturn.Text.Basic

namespace EarlyReturn.Glob

/-- Why a glob cannot be read. -/
inductive Fault where
  | unclosedSet
  | reversedRange (low high : Char)
  | unopenedGroup
  | unclosedGroup
  | danglingEscape
  deriving DecidableEq, Repr

def Fault.message : Fault → Text
  | .unclosedSet => "unclosed character class; missing ']'".toList
  | .reversedRange low high =>
    "invalid range; '".toList ++ [low] ++ "' > '".toList ++ [high] ++ "'".toList
  | .unopenedGroup =>
    ("unopened alternate group; missing '\x7b' "
      ++ "(maybe escape '\x7d' with '[\x7d]'?)").toList
  | .unclosedGroup =>
    ("unclosed alternate group; missing '\x7d' "
      ++ "(maybe escape '\x7b' with '[\x7b]'?)").toList
  | .danglingEscape => "dangling '\\'".toList

-- ======================================== tokens

/-- A piece of a glob. -/
inductive Token where
  | literal (c : Char)
  | anyByte
  | run
  /-- Two stars at the start: any leading components. -/
  | leading
  /-- Two stars at the end: anything below. -/
  | trailing
  /-- Two stars between slashes: any components between. -/
  | between
  | oneOf (set : ByteSet)
  | group (pattern : Pattern)
  deriving DecidableEq, Repr

def slashPattern : Pattern := .one (.single Byte.slash)

/-- What a token asks for. -/
def Token.pattern : Token → Pattern
  | .literal c => .literal (String.utf8EncodeChar c)
  | .anyByte => .one .any
  | .run => .anything
  | .leading =>
    .either (.either slashPattern .nothing) (.both .anything slashPattern)
  | .trailing => .both slashPattern .anything
  | .between =>
    .either slashPattern (.both slashPattern (.both .anything slashPattern))
  | .oneOf s => .one s
  | .group p => p

/-- What a list of tokens, last one first, asks for. -/
def compile (tokens : List Token) : Pattern :=
  .sequence (tokens.reverse.map Token.pattern)

-- ======================================== sets

/-- A set while it is read: its ranges of characters, last one first,
and whether a dash awaits the end of a range. -/
structure Members where
  negated : Bool
  ranges : List (Char × Char) := []
  dash : Bool := false
  deriving DecidableEq, Repr

namespace Members

/-- Adds a member or ends a range with it. -/
def add (m : Members) (c : Char) : Except Fault Members :=
  match m.ranges, m.dash with
  | (low, _) :: rest, true =>
    if c < low then .error (.reversedRange low c)
    else .ok { m with ranges := (low, c) :: rest, dash := false }
  | ranges, _ => .ok { m with ranges := (c, c) :: ranges, dash := false }

/-- Reads a character of the set other than the closing bracket. A dash
is a member if it comes first and the start of a range after a member. -/
def read (m : Members) (c : Char) : Except Fault Members :=
  if c = '-' ∧ m.ranges ≠ [] ∧ m.dash = false then .ok { m with dash := true }
  else m.add c

/-- The byte ranges of a range of characters. Between the last byte of
the first character and the first byte of the last one lies a range; the
other bytes count one by one. -/
def byteRanges (range : Char × Char) : List (UInt8 × UInt8) :=
  let low := String.utf8EncodeChar range.1
  let high := String.utf8EncodeChar range.2
  if range.1 = range.2 then low.map fun b => (b, b)
  else
    low.dropLast.map (fun b => (b, b)) ++ [(low.getLastD 0, high.headD 0)]
      ++ high.tail.map fun b => (b, b)

/-- The finished set. A dash that is still open is a member. -/
def finish (m : Members) : ByteSet :=
  let ranges := if m.dash then ('-', '-') :: m.ranges else m.ranges
  ⟨m.negated, ranges.reverse.flatMap byteRanges⟩

end Members

-- ======================================== the reader

/-- What the next character belongs to. `star` and `stars` hold back one
or two stars, with the character before them. -/
inductive Mode where
  | plain
  | escape
  | star (before : Option Char)
  | stars (before : Option Char)
  | setStart
  | set (members : Members)
  deriving DecidableEq, Repr

/-- The state between two characters: the tokens of the current
alternative, last one first; for each open group, innermost first, the
tokens before it and its finished alternatives, last one first; the
character before, and the mode. -/
structure Reader where
  tokens : List Token := []
  groups : List (List Token × List Pattern) := []
  previous : Option Char := none
  mode : Mode := .plain
  deriving DecidableEq, Repr

namespace Reader

def push (r : Reader) (token : Token) : Reader :=
  { r with tokens := token :: r.tokens, mode := .plain }

/-- Puts a recursive token in place of the slash before it. After
another recursive token it adds nothing. -/
def recur (r : Reader) (token : Token) : Reader :=
  match r.tokens with
  | .leading :: _ | .trailing :: _ => { r with mode := .plain }
  | _ :: rest => { r with tokens := token :: rest, mode := .plain }
  | [] => { r with mode := .plain }

/-- Decides what two stars are, from the character before them and the
one after. The answer says whether the latter is used up. -/
def settle (r : Reader) (before next : Option Char) : Reader × Bool :=
  let inGroup := r.groups ≠ []
  if r.tokens = [] then
    if next = none ∨ next = some '/' then (r.push .leading, true)
    else ((r.push .run).push .run, false)
  else if before = some '/'
      ∨ (inGroup ∧ (before = some ',' ∨ before = some '\x7b')) then
    if next = none ∨ (inGroup ∧ (next = some ',' ∨ next = some '\x7d')) then
      (r.recur .trailing, false)
    else if next = some '/' then (r.recur .between, true)
    else ((r.push .run).push .run, false)
  else ((r.push .run).push .run, false)

/-- Closes the innermost group. -/
def closeGroup (r : Reader) : Except Fault Reader :=
  match r.groups with
  | [] => .error .unopenedGroup
  | (outer, alternatives) :: rest =>
    let pattern := Pattern.group (compile r.tokens :: alternatives).reverse
    .ok { r with
      tokens := .group pattern :: outer, groups := rest, mode := .plain }

/-- Reads a character outside sets, escapes and stars. -/
def readPlain (r : Reader) (c : Char) : Except Fault Reader :=
  match c with
  | '?' => .ok (r.push .anyByte)
  | '*' => .ok { r with mode := .star r.previous }
  | '[' => .ok { r with mode := .setStart }
  | '\x7b' =>
    .ok { r with
      tokens := [], groups := (r.tokens, []) :: r.groups, mode := .plain }
  | '\x7d' => r.closeGroup
  | ',' =>
    match r.groups with
    | [] => .ok (r.push (.literal c))
    | (outer, alternatives) :: rest =>
      .ok { r with
        tokens := []
        groups := (outer, compile r.tokens :: alternatives) :: rest
        mode := .plain }
  | '\\' => .ok { r with mode := .escape }
  | _ => .ok (r.push (.literal c))

/-- Reads a character of a set. -/
def readSet (r : Reader) (m : Members) (c : Char) : Except Fault Reader :=
  if c = ']' ∧ m.ranges ≠ [] then .ok (r.push (.oneOf m.finish))
  else (m.read c).map fun m => { r with mode := .set m }

/-- Reads a character. -/
def read (r : Reader) (c : Char) : Except Fault Reader :=
  match r.mode with
  | .plain => r.readPlain c
  | .escape => .ok (r.push (.literal c))
  | .star before =>
    if c = '*' then .ok { r with mode := .stars before }
    else (r.push .run).readPlain c
  | .stars before =>
    match r.settle before (some c) with
    | (r, true) => .ok r
    | (r, false) => r.readPlain c
  | .setStart =>
    if c = '!' ∨ c = '^' then .ok { r with mode := .set { negated := true } }
    else r.readSet { negated := false } c
  | .set m => r.readSet m c

/-- Reads a character and remembers it. -/
def step (r : Reader) (c : Char) : Except Fault Reader :=
  (r.read c).map fun r => { r with previous := some c }

/-- The pattern, once the glob has been read to its end. A glob that is
nothing but two stars matches everything. -/
def finish (r : Reader) : Except Fault Pattern := do
  let r ←
    match r.mode with
    | .plain => .ok r
    | .escape => .error .danglingEscape
    | .star _ => .ok (r.push .run)
    | .stars before => .ok (r.settle before none).1
    | .setStart | .set _ => .error .unclosedSet
  if r.groups ≠ [] then .error .unclosedGroup
  else if r.tokens = [.leading] then .ok .anything
  else .ok (compile r.tokens)

end Reader

/-- The pattern of a glob. -/
def parse (glob : Text) : Except Fault Pattern := do
  let reader ← glob.foldlM Reader.step {}
  reader.finish

end EarlyReturn.Glob
